import FlatLisp.Proofs.Frame
import FlatLisp.Proofs.Operator
import FlatLisp.Proofs.Tree.Evaluation

/-! The faults that trees can lead to. An evaluator of trees has no parens to look for, so that no
fault of it tells of parens. -/
namespace FlatLisp
open Machine Eval

variable {β α γ : Type}

namespace Fault

/-- An evaluator came upon a paren where none should be, or on none where one should be. -/
def IsStructural : Fault → Prop
  | unbalanced (.unmatchedOpen _) | unbalanced (.unexpectedClose _) => True
  | malformed (.noOpenParen _) | malformed (.notParenthesized _) => True
  | malformed .headClose | malformed (.parenOperand _) | malformed (.notAnOperand _) => True
  | _ => False

/-- The fault tells of what a program does, and not of its parens. -/
def IsPlain (f : Fault) : Prop := f.kind ≠ .unbalancedParentheses ∧ ¬ f.IsStructural

end Fault

/-- If the result is a fault, it is a plain one. -/
def PlainResult (x : Except Fault α) : Prop := ∀ f, x = .error f → f.IsPlain

namespace PlainResult

theorem ok (a : α) : PlainResult (.ok a) := nofun

theorem error {f : Fault} (h : f.IsPlain) : PlainResult (.error f : Except Fault α) := by
  rintro g ⟨⟩
  exact h

end PlainResult

namespace Operator
variable {op : Operator} {args : List Value}

theorem Finds.isPlain {f : Fault} (h : op.Finds args f) : f.IsPlain := by
  cases h <;> exact ⟨nofun, id⟩

theorem plainResult_apply : PlainResult (op.apply args) := fun _ h => (finds_of_apply h).isPlain

end Operator

namespace Evaluation

/-- Where the evaluation fails, it is for a plain fault. -/
def Plain (x : Evaluation β α) : Prop :=
  ∀ o s e t, x o s = some (.error e, t) → e.fault.IsPlain

namespace Plain
variable {x : Evaluation β α}

theorem of_ok (h : ∀ o s, ∃ a t, x o s = some (.ok a, t)) : Plain x := Raises.of_ok h

theorem exhausted : Plain (Machine.exhausted : Evaluation β α) := Raises.exhausted

theorem fail {f : Fault} (h : f.IsPlain) : Plain (Machine.fail f : Evaluation β α) := Raises.fail h

theorem malformed {cause : Malformation} (h : ¬ (Fault.malformed cause).IsStructural) :
    Plain (Machine.malformed cause : Evaluation β α) := .fail ⟨nofun, h⟩

theorem pure (a : α) : Plain (Pure.pure a : Evaluation β α) := Raises.pure a

theorem bind {f : α → Evaluation β γ} (hx : Plain x) (hf : ∀ a, Plain (f a)) :
    Plain (x >>= f) := Raises.bind hx hf

theorem ofExcept {y : Except Fault α} (h : PlainResult y) :
    Plain (Machine.ofExcept y : Evaluation β α) := by
  cases y with
  | ok a => exact .pure a
  | error f => exact .fail (h f rfl)

theorem inForm (form : List Token) (hx : Plain x) : Plain (Machine.inForm form x) := by
  intro o s e t he
  simp only [Machine.inForm, located] at he
  split at he
  · rename_i g u hg
    obtain ⟨rfl, -⟩ : g.locate form = e ∧ u = t := by simpa using he
    rw [Error.fault_locate]
    exact hx o s g u hg
  · exact hx o s e t he

theorem inCall (f : UserFunction β) (hx : Plain x) : Plain (Machine.inCall f x) := by
  intro o s e t he
  obtain ⟨g, hg, he, -⟩ | ⟨_, u, -, hu, -⟩ := called_eq_some he
  · obtain ⟨-, rfl⟩ := Environment.enter_eq_error_iff.mp hg
    obtain rfl := Except.error.inj he
    exact ⟨nofun, id⟩
  · exact hx o _ e u hu

end Plain
end Evaluation

namespace Tree
open Evaluation

section
variable {self : Tree → Evaluation (List Tree) Value}

theorem plain_integerLiteral (text : String) :
    Plain (integerLiteral text : Evaluation β Value) := by
  simp only [integerLiteral]
  split
  · exact .pure _
  · exact .malformed id

theorem plain_evalSymbol (name : String) : Plain (evalSymbol name : Evaluation β Value) :=
  .bind (.of_ok fun _ s => ⟨_, s, rfl⟩) fun _ => .pure _

theorem plain_loop {condition body : Evaluation β Value} (hc : condition.Plain) (hb : body.Plain)
    (steps rounds : Nat) (last : Value) : Plain (loop condition body steps rounds last) :=
  Raises.loop (fun _ => ⟨nofun, id⟩) hc hb steps rounds last

theorem plain_bindParameters (names : List String) (args : List Value) :
    Plain (bindParameters names args : Evaluation β Unit) := by
  induction names generalizing args with
  | nil => exact .pure _
  | cons name names ih =>
    cases args with
    | nil => exact .pure _
    | cons v vs => exact .bind (.of_ok fun _ s => ⟨_, _, rfl⟩) fun _ => ih vs

theorem plain_evalAll (hs : ∀ tree, (self tree).Plain) (trees : List Tree) :
    (evalAll self trees).Plain := by
  induction trees with
  | nil => exact .pure _
  | cons tree trees ih => exact (hs tree).bind fun _ => ih.bind fun _ => .pure _

theorem plain_evalLast (hs : ∀ tree, (self tree).Plain) (last : Value) (trees : List Tree) :
    (evalLast self last trees).Plain := by
  induction trees generalizing last with
  | nil => exact .pure last
  | cons tree trees ih => exact (hs tree).bind fun v => ih v

theorem plain_nameOf (form : SpecialForm) (tree : Tree) :
    Plain (nameOf form tree : Evaluation (List Tree) String) := by
  cases tree with
  | symbol name => exact .pure name
  | number _ | list _ _ _ => exact .malformed id

theorem not_isStructural_of_parameterNames {function : String} {earlier : List String}
    {trees : List Tree} {cause : Malformation}
    (h : parameterNames function earlier trees = .error cause) :
    ¬ (Fault.malformed cause).IsStructural := by
  induction trees generalizing earlier with
  | nil => cases h
  | cons tree trees ih =>
    cases tree with
    | number text =>
      cases h
      exact id
    | list opening closing elements =>
      cases h
      exact id
    | symbol name =>
      simp only [parameterNames] at h
      split at h
      · cases h
        exact id
      · cases hn : parameterNames function (name :: earlier) trees with
        | ok names => simp [hn, Except.map] at h
        | error g =>
          obtain rfl : g = cause := by simpa [hn, Except.map] using h
          exact ih hn

theorem plain_evalDefun (target parameterList : Tree) (body : List Tree) :
    Plain (evalDefun target parameterList body : Evaluation (List Tree) Value) := by
  refine (plain_nameOf .defun target).bind fun name => ?_
  split
  · exact .malformed id
  · split
    · rename_i cause hp
      cases parameterList with
      | list opening closing elements => exact .malformed (not_isStructural_of_parameterNames hp)
      | number _ | symbol _ =>
        cases hp
        exact .malformed id
    · split
      · exact .malformed id
      · exact .bind (.of_ok fun _ s => ⟨_, _, rfl⟩) fun _ => .pure _

theorem plain_evalSpecial (hs : ∀ tree, (self tree).Plain) (steps : Nat) (form : SpecialForm)
    (operands : List Tree) : (evalSpecial self steps form operands).Plain := by
  unfold evalSpecial
  split
  · refine (plain_nameOf .setq _).bind fun _ => (hs _).bind fun _ => ?_
    exact .bind (.of_ok fun _ s => ⟨_, _, rfl⟩) fun _ => .pure _
  · exact (hs _).bind fun _ => .bind (.of_ok fun _ s => ⟨_, _, rfl⟩) fun _ => .pure _
  · exact plain_evalDefun _ _ _
  · refine (hs _).bind fun c => ?_
    split
    · exact hs _
    · exact .pure _
  · refine (hs _).bind fun c => ?_
    split
    · exact hs _
    · exact hs _
  · exact plain_loop (hs _) (plain_evalLast hs _ _) _ _ _
  · refine (hs _).bind fun _ => plain_loop (hs _) ?_ _ _ _
    exact (hs _).bind fun _ => (hs _).bind fun _ => .pure _
  · exact .fail ⟨nofun, id⟩

theorem plain_call (hs : ∀ tree, (self tree).Plain) (f : UserFunction (List Tree))
    (args : List Value) : (call self f args).Plain := by
  simp only [call]
  split
  · exact .inCall f ((plain_bindParameters _ _).bind fun _ => plain_evalLast hs _ _)
  · exact .fail ⟨nofun, id⟩

theorem plain_apply (hs : ∀ tree, (self tree).Plain) (steps : Nat) (name : String)
    (operands : List Tree) : (apply self steps name operands).Plain := by
  simp only [apply]
  split
  · refine (Plain.ofExcept ?_).bind fun _ => ?_
    · simp only [Arity.validate]
      split
      · exact .ok _
      · exact .error ⟨nofun, id⟩
    · split
      · exact (plain_evalAll hs operands).bind fun _ => .ofExcept Operator.plainResult_apply
      · exact plain_evalSpecial hs steps _ operands
  · refine .bind (.of_ok fun _ s => ⟨_, s, rfl⟩) fun f => ?_
    split
    · exact (plain_evalAll hs operands).bind fun args => plain_call hs _ args
    · refine .bind (.of_ok fun _ s => ⟨_, s, rfl⟩) fun v => ?_
      split
      · split
        · exact .pure _
        · exact .malformed id
      · exact .fail ⟨nofun, id⟩

theorem plain_evalElements (hs : ∀ tree, (self tree).Plain) (steps : Nat) (elements : List Tree) :
    (evalElements self steps elements).Plain := by
  match elements with
  | [] => exact .malformed id
  | symbol name :: operands => exact plain_apply hs steps name operands
  | number text :: operands =>
    simp only [evalElements]
    split
    · exact plain_integerLiteral text
    · exact .malformed id
  | list opening closing inner :: rest => exact plain_evalLast hs _ _

end

theorem plain_eval (steps : Nat) (tree : Tree) :
    Plain (eval steps tree : Evaluation (List Tree) Value) := by
  induction steps generalizing tree with
  | zero =>
    cases tree with
    | number text => exact plain_integerLiteral text
    | symbol name => exact plain_evalSymbol name
    | list opening closing elements => exact .exhausted
  | succ steps ih =>
    cases tree with
    | number text => exact plain_integerLiteral text
    | symbol name => exact plain_evalSymbol name
    | list opening closing elements => exact .inForm _ (plain_evalElements ih steps elements)

theorem plain_evalProgram (steps : Nat) (last : Value) (trees : List Tree) :
    Plain (evalProgram steps last trees : Evaluation (List Tree) Value) := by
  induction trees generalizing last with
  | nil => exact .pure last
  | cons tree trees ih =>
    cases tree with
    | number _ | symbol _ => exact .malformed id
    | list opening closing elements => exact (plain_eval steps _).bind fun v => ih v

end Tree
end FlatLisp
