import FlatLisp.Proofs.Coupling
import FlatLisp.Proofs.Tree.Evaluation
import FlatLisp.Proofs.Tree.Split

/-! Forms on one machine and their trees on another. What the one evaluator finds by scanning, the
other one has at hand. -/
namespace FlatLisp.Coupling
open Machine Eval Nesting FlatLisp.Tree

variable {m₁ m₂ : Type → Type} [Machine (List Token) m₁] [Machine (List Tree) m₂]
  {c : Coupling .full m₁ m₂} {self₁ : List Token → m₁ Value}
  {self₂ : Tree → m₂ Value}

/-- The two functions are the same, written as tokens and as trees. -/
structure Written (f : UserFunction (List Token)) (g : UserFunction (List Tree)) : Prop where
  name : f.name = g.name
  parameters : f.parameters = g.parameters
  body : f.body = tokensOf g.body

/-- The coupling relates functions that are the same, and is kept by calls, by rounds of loops and
by a shortage of steps. -/
structure Parallel (c : Coupling .full m₁ m₂) : Prop where
  stored_iff {f : UserFunction (List Token)} {g : UserFunction (List Tree)} :
    c.Stored f g ↔ Written f g
  exhausted : c.Rel (Same fun _ => True) (exhausted : m₁ Value) (exhausted : m₂ Value)
  startRound (n : Nat) : c.Rel Eq (startRound n) (startRound n)
  inCall {f : UserFunction (List Token)} {g : UserFunction (List Tree)} {x : m₁ Value}
    {y : m₂ Value} : c.Stored f g → c.Rel (Same fun _ => True) x y →
      c.Rel (Same fun _ => True) (inCall f x) (inCall g y)

/-- The trees have the same values as the operands that are written from them. -/
def Trees (c : Coupling .full m₁ m₂) (self₁ : List Token → m₁ Value) (self₂ : Tree → m₂ Value)
    (trees : List Tree) : Prop :=
  ∀ tree ∈ trees, c.Rel (Same fun _ => True) (evalOperand self₁ tree.tokens) (self₂ tree)

namespace Trees

theorem head {tree : Tree} {trees : List Tree} (h : c.Trees self₁ self₂ (tree :: trees)) :
    c.Rel (Same fun _ => True) (evalOperand self₁ tree.tokens) (self₂ tree) := h tree (by simp)

theorem tail {tree : Tree} {trees : List Tree} (h : c.Trees self₁ self₂ (tree :: trees)) :
    c.Trees self₁ self₂ trees := fun t ht => h t (by simp [ht])

theorem rel_evalAll {trees : List Tree} (h : c.Trees self₁ self₂ trees) :
    c.Rel (Same fun _ => True) (evalOperands self₁ (trees.map tokens)) (evalAll self₂ trees) := by
  induction trees with
  | nil => exact c.pure ⟨rfl, trivial⟩
  | cons tree trees ih =>
    refine c.bind h.head ?_
    intro v v' hv
    obtain ⟨rfl, -⟩ := hv
    refine c.bind (ih h.tail) ?_
    intro vs vs' hvs
    obtain ⟨rfl, -⟩ := hvs
    exact c.pure ⟨rfl, trivial⟩

theorem rel_evalLast {trees : List Tree} (h : c.Trees self₁ self₂ trees) (last : Value) :
    c.Rel (Same fun _ => True) (evalSequence self₁ last (trees.map tokens))
      (evalLast self₂ last trees) := by
  induction trees generalizing last with
  | nil => exact c.pure ⟨rfl, trivial⟩
  | cons tree trees ih =>
    refine c.bind h.head ?_
    intro v v' hv
    obtain ⟨rfl, -⟩ := hv
    exact ih h.tail v

end Trees

theorem rel_nameOf_tokens (form : SpecialForm) (tree : Tree) :
    c.Rel (Same fun _ => True) (Eval.nameOf form tree.tokens) (Tree.nameOf form tree) := by
  cases tree with
  | number text => exact c.fail _
  | symbol name => exact c.pure ⟨rfl, trivial⟩
  | list opening closing elements =>
    obtain ⟨t, ts, h⟩ := exists_tokens_list_eq opening closing elements
    simp only [Tree.nameOf, h]
    exact c.fail _

theorem parameterNames_tokensOf (function : String) (earlier : List String) (trees : List Tree) :
    Eval.parameterNames function earlier (tokensOf trees) =
      Tree.parameterNames function earlier trees := by
  induction trees generalizing earlier with
  | nil => rfl
  | cons tree trees ih =>
    cases tree with
    | number text => simp [tokensOf, tokens, Eval.parameterNames, Tree.parameterNames]
    | symbol name => simp [tokensOf, tokens, Eval.parameterNames, Tree.parameterNames, ih]
    | list opening closing elements =>
      simp [tokensOf, tokens, Eval.parameterNames, Tree.parameterNames]

theorem parametersOf_tokens (function : String) (tree : Tree) :
    Eval.parametersOf function tree.tokens = Tree.parametersOf function tree := by
  simp only [Eval.parametersOf]
  cases tree with
  | number text => rfl
  | symbol name => rfl
  | list opening closing elements =>
    simp only [enclosed?_tokens_list, parameterNames_tokensOf, Tree.parametersOf]

theorem Parallel.rel_evalDefun (p : c.Parallel) (target parameterList : Tree) (body : List Tree) :
    c.Rel (Same fun _ => True)
      (Eval.evalDefun (target.tokens :: parameterList.tokens :: body.map tokens))
      (Tree.evalDefun target parameterList body) := by
  refine c.bind (rel_nameOf_tokens .defun target) ?_
  intro name name' hname
  obtain ⟨rfl, -⟩ := hname
  split
  · exact c.fail _
  · rw [parametersOf_tokens]
    cases Tree.parametersOf name parameterList with
    | error cause => exact c.fail _
    | ok parameters =>
      simp only [List.isEmpty_map]
      split
      · exact c.fail _
      · refine c.bind (c.define (p.stored_iff.mpr ⟨rfl, rfl, flatten_map_tokens body⟩)) ?_
        exact fun _ _ _ => c.pure ⟨rfl, trivial⟩

theorem rel_wrongArity (c : Coupling .full m₁ m₂) (form : SpecialForm) (trees : List Tree) :
    c.Rel (Same fun _ => True) (wrongArity form (trees.map tokens) : m₁ Value)
      (Machine.fail (.arityMismatch form.symbol form.arity trees.length) : m₂ Value) := by
  simp only [wrongArity, List.length_map]
  exact c.fail _

theorem Trees.rel_setq {trees : List Tree} (h : c.Trees self₁ self₂ trees) (steps : Nat) :
    c.Rel (Same fun _ => True) (evalSetq self₁ (trees.map tokens))
      (Tree.evalSpecial self₂ steps .setq trees) := by
  match trees with
  | [target, operand] =>
    have hvalue := h.tail.head
    refine c.bind (rel_nameOf_tokens .setq target) ?_
    intro name name' hname
    obtain ⟨rfl, -⟩ := hname
    refine c.bind hvalue ?_
    intro v v' hv
    obtain ⟨rfl, -⟩ := hv
    exact c.bind (c.assign trivial trivial) fun _ _ _ => c.pure ⟨rfl, trivial⟩
  | [] => exact c.fail _
  | [_] => exact c.fail _
  | x :: y :: z :: rest => exact c.rel_wrongArity .setq (x :: y :: z :: rest)

theorem Trees.rel_print {trees : List Tree} (h : c.Trees self₁ self₂ trees) (steps : Nat) :
    c.Rel (Same fun _ => True) (evalPrint self₁ (trees.map tokens))
      (Tree.evalSpecial self₂ steps .print trees) := by
  match trees with
  | [operand] =>
    refine c.bind h.head ?_
    intro v v' hv
    obtain ⟨rfl, -⟩ := hv
    exact c.bind (c.print trivial) fun _ _ _ => c.pure ⟨rfl, trivial⟩
  | [] => exact c.fail _
  | x :: y :: rest => exact c.rel_wrongArity .print (x :: y :: rest)

theorem Trees.rel_cond {trees : List Tree} (h : c.Trees self₁ self₂ trees) (steps : Nat) :
    c.Rel (Same fun _ => True) (evalIf self₁ (trees.map tokens))
      (Tree.evalSpecial self₂ steps .cond trees) := by
  match trees with
  | [condition, yes] =>
    have hyes := h.tail.head
    refine c.bind h.head ?_
    intro v v' hv
    obtain ⟨rfl, -⟩ := hv
    split
    · exact hyes
    · exact c.pure ⟨rfl, trivial⟩
  | [condition, yes, no] =>
    have hyes := h.tail.head
    have hno := h.tail.tail.head
    refine c.bind h.head ?_
    intro v v' hv
    obtain ⟨rfl, -⟩ := hv
    split
    · exact hyes
    · exact hno
  | [] => exact c.fail _
  | [_] => exact c.fail _
  | w :: x :: y :: z :: rest => exact c.rel_wrongArity .cond (w :: x :: y :: z :: rest)

/-- Only lists take steps. An atom has the same value as a tree. -/
theorem rel_eval_of_lists {steps : Nat}
    (h : ∀ opening closing elements, c.Rel (Same fun _ => True)
      (evalForm steps (list opening closing elements).tokens)
      (Tree.eval steps (list opening closing elements))) (tree : Tree) :
    c.Rel (Same fun _ => True) (evalOperand (evalForm steps) tree.tokens)
      (Tree.eval steps tree) := by
  cases tree with
  | number text =>
    simp only [Tree.eval]
    exact c.rel_integerLiteral text
  | symbol name =>
    simp only [Tree.eval]
    exact c.rel_evalSymbol trivial
  | list opening closing elements =>
    have hlist := h opening closing elements
    obtain ⟨t, ts, htokens⟩ := exists_tokens_list_eq opening closing elements
    rw [htokens] at hlist ⊢
    exact hlist

namespace Parallel
variable (p : c.Parallel) {trees : List Tree}
include p

theorem rel_loop {condition₁ body₁ : m₁ Value} {condition₂ body₂ : m₂ Value}
    (hc : c.Rel (Same fun _ => True) condition₁ condition₂)
    (hb : c.Rel (Same fun _ => True) body₁ body₂) (steps : Nat) :
    c.Rel (Same fun _ => True) (loop condition₁ body₁ steps 0 (.integer 0))
      (loop condition₂ body₂ steps 0 (.integer 0)) := by
  change c.Rel _ _ (loop condition₂ body₂ (steps + 0) 0 (.integer 0))
  refine c.rel_loop ?_ p.startRound hc hb steps 0 trivial
  intro y hy
  exact hy rfl ▸ p.exhausted

theorem rel_while (h : c.Trees self₁ self₂ trees) (steps : Nat) :
    c.Rel (Same fun _ => True) (evalWhile self₁ steps (trees.map tokens))
      (Tree.evalSpecial self₂ steps .loopWhile trees) := by
  match trees with
  | condition :: body =>
    have hbody := h.tail.rel_evalLast .empty
    exact p.rel_loop h.head hbody steps
  | [] => exact c.fail _

theorem rel_for (h : c.Trees self₁ self₂ trees) (steps : Nat) :
    c.Rel (Same fun _ => True) (evalFor self₁ steps (trees.map tokens))
      (Tree.evalSpecial self₂ steps .loopFor trees) := by
  match trees with
  | [start, condition, body, update] =>
    have hcondition := h.tail.head
    have hbody := h.tail.tail.head
    have hupdate := h.tail.tail.tail.head
    refine c.bind h.head ?_
    intro _ _ _
    refine p.rel_loop hcondition ?_ steps
    refine c.bind hbody ?_
    intro v v' hv
    exact c.bind hupdate fun _ _ _ => c.pure hv
  | [] => exact c.fail _
  | [_] => exact c.fail _
  | [_, _] => exact c.fail _
  | [_, _, _] => exact c.fail _
  | v :: w :: x :: y :: z :: rest =>
    exact c.rel_wrongArity .loopFor (v :: w :: x :: y :: z :: rest)

theorem rel_evalSpecial (h : c.Trees self₁ self₂ trees) (steps : Nat) (form : SpecialForm) :
    c.Rel (Same fun _ => True) (Eval.evalSpecial self₁ steps form (trees.map tokens))
      (Tree.evalSpecial self₂ steps form trees) := by
  cases form with
  | setq => exact h.rel_setq steps
  | print => exact h.rel_print steps
  | defun =>
    match trees with
    | target :: parameterList :: body => exact p.rel_evalDefun target parameterList body
    | [] => exact c.fail _
    | [_] => exact c.fail _
  | cond => exact h.rel_cond steps
  | loopWhile => exact p.rel_while h steps
  | loopFor => exact p.rel_for h steps

/-- The body of a function is split again for each call, into the trees that it is stored as. -/
theorem rel_call [LawfulMonad m₁] {f : UserFunction (List Token)} {g : UserFunction (List Tree)}
    (hfg : Written f g) (h : c.Trees self₁ self₂ g.body) (args : List Value) :
    c.Rel (Same fun _ => True) (invoke self₁ f args) (Tree.call self₂ g args) := by
  have hsplit : splitOperands f.body = .ok (g.body.map tokens) :=
    hfg.body ▸ splitOperands_tokensOf g.body
  simp only [invoke, Tree.call]
  rw [hfg.name, hfg.parameters, hsplit]
  split
  · simp only [Machine.ofExcept, pure_bind]
    have hbind : c.Rel Eq (bindParameters g.parameters args) (bindParameters g.parameters args) :=
      c.rel_bindParameters (fun _ _ => trivial) (fun _ _ => trivial)
    apply p.inCall (p.stored_iff.mpr hfg)
    exact c.bind hbind fun _ _ _ => h.rel_evalLast .empty
  · exact c.fail _

theorem rel_apply [LawfulMonad m₁] (h : c.Trees self₁ self₂ trees)
    (hs : ∀ trees, c.Trees self₁ self₂ trees) (steps : Nat) (name : String) :
    c.Rel (Same fun _ => True) (applyName self₁ steps name (trees.map tokens))
      (Tree.apply self₂ steps name trees) := by
  simp only [applyName, Tree.apply]
  cases Builtin.ofSymbol? name with
  | some b =>
    simp only [evalBuiltin, List.length_map]
    refine c.bind (c.rel_ofExcept (P := fun _ => True) fun _ _ => trivial) fun _ _ _ => ?_
    cases b with
    | operator op =>
      refine c.bind h.rel_evalAll ?_
      intro args args' hargs
      obtain ⟨rfl, -⟩ := hargs
      exact c.rel_ofExcept fun _ _ => trivial
    | special form => exact p.rel_evalSpecial h steps form
  | none =>
    refine c.bind (c.function? trivial) ?_
    rintro _ _ (⟨hf⟩ | _)
    · refine c.bind h.rel_evalAll ?_
      intro args args' hargs
      obtain ⟨rfl, -⟩ := hargs
      exact p.rel_call (p.stored_iff.mp hf) (hs _) args
    · refine c.bind (c.lookup trivial) ?_
      intro v v' hv
      obtain ⟨rfl, -⟩ := hv
      cases v with
      | none => exact c.fail _
      | some v =>
        simp only [List.isEmpty_map]
        split
        · exact c.pure ⟨rfl, trivial⟩
        · exact c.fail _

/-- A block is told from other forms by its first tree. -/
theorem rel_evalElements [LawfulMonad m₁] {elements : List Tree}
    (hs : ∀ trees, c.Trees self₁ self₂ trees) (steps : Nat) :
    c.Rel (Same fun _ => True) (evalInner self₁ steps (tokensOf elements))
      (Tree.evalElements self₂ steps elements) := by
  match elements with
  | [] => exact c.fail _
  | number text :: operands =>
    simp only [tokensOf, tokens, List.singleton_append, evalInner, splitOperands_tokensOf,
      Machine.ofExcept, pure_bind, List.isEmpty_map, Tree.evalElements]
    split
    · exact c.rel_integerLiteral text
    · exact c.fail _
  | symbol name :: operands =>
    simp only [tokensOf, tokens, List.singleton_append, evalInner, splitOperands_tokensOf,
      Machine.ofExcept, pure_bind, Tree.evalElements]
    exact p.rel_apply (hs operands) hs steps name
  | list opening closing inner :: elements =>
    have hsplit := splitOperands_tokensOf (list opening closing inner :: elements)
    simp only [tokensOf, tokens, List.cons_append] at hsplit
    simp only [tokensOf, tokens, List.cons_append, evalInner, hsplit, Machine.ofExcept, pure_bind,
      Tree.evalElements]
    exact (hs (list opening closing inner :: elements)).rel_evalLast .empty

/-- Each step into a form is a step into a list. -/
theorem rel_evalForm [LawfulMonad m₁] (steps : Nat) (opening closing : String)
    (elements : List Tree) :
    c.Rel (Same fun _ => True) (evalForm steps (list opening closing elements).tokens)
      (Tree.eval steps (list opening closing elements)) := by
  induction steps generalizing opening closing elements with
  | zero =>
    simp only [evalForm, Tree.eval]
    exact p.exhausted
  | succ steps ih =>
    simp only [evalForm, Tree.eval]
    refine c.inForm _ ?_
    simp only [dispatch, enclosed?_tokens_list]
    exact p.rel_evalElements (fun _ tree _ => rel_eval_of_lists ih tree) steps

theorem rel_evalForms [LawfulMonad m₁] (steps : Nat) (last : Value) (trees : List Tree) :
    c.Rel (Same fun _ => True) (evalForms steps last (trees.map tokens))
      (Tree.evalProgram steps last trees) := by
  induction trees generalizing last with
  | nil => exact c.pure ⟨rfl, trivial⟩
  | cons tree trees ih =>
    cases tree with
    | number text => exact c.fail _
    | symbol name => exact c.fail _
    | list opening closing elements =>
      have hlist := p.rel_evalForm steps opening closing elements
      obtain ⟨t, ts, htokens⟩ := exists_tokens_list_eq opening closing elements
      simp only [List.map_cons, htokens, evalForms, Tree.evalProgram] at hlist ⊢
      refine c.bind hlist ?_
      intro v v' hv
      obtain ⟨rfl, -⟩ := hv
      exact ih v

/-- In the tokens of a forest, nothing cuts the forms short. -/
theorem rel_evaluateProgram [LawfulMonad m₁] (steps : Nat) (forest : List Tree) :
    c.Rel (Same fun _ => True) (evaluateProgram steps (tokensOf forest))
      (Tree.evalProgram steps .empty forest) := by
  have h := p.rel_evalForms steps .empty forest
  simpa only [evaluateProgram, operands_tokensOf, bind_pure] using h

end Parallel

end FlatLisp.Coupling
