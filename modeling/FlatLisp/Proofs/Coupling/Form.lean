import FlatLisp.Proofs.Coupling.Special

/-! Forms and programs on two machines. A coupling that holds of the operands of a form, of its
loops and of its calls holds of the form; one that holds of all loops and calls holds of every
program. -/
namespace FlatLisp.Coupling
open Machine Eval Nesting

variable {V : Vocabulary} {m₁ m₂ : Type → Type} [Machine (List Token) m₁]
  [Machine (List Token) m₂] {c : Coupling V m₁ m₂} {self₁ : List Token → m₁ Value}
  {self₂ : List Token → m₂ Value} {steps₁ steps₂ : Nat}

theorem rel_evalOperator {xs : List (List Token)} (h : c.Operands self₁ self₂ xs)
    (op : Operator) :
    c.Rel (Same V.Good) (evalOperator self₁ op xs) (evalOperator self₂ op xs) := by
  refine c.bind h.rel_evalOperands ?_
  intro args args' hargs
  obtain ⟨rfl, ha⟩ := hargs
  exact c.rel_ofExcept fun _ hv => V.result ha hv

/-- What is left of a call once it counts as active, on a machine that may be coupled in another
way there. -/
theorem rel_callBody {names : List String} {args : List Value} {body : List (List Token)}
    (hn : ∀ n ∈ names, V.Name n) (ha : ∀ a ∈ args, V.Good a)
    (hb : c.Operands self₁ self₂ body) :
    c.Rel (Same V.Good)
      (do bindParameters names args; evalSequence self₁ .empty body)
      (do bindParameters names args; evalSequence self₂ .empty body) :=
  c.bind (c.rel_bindParameters hn ha) fun _ _ _ => hb.rel_evalSequence V.empty

theorem rel_invoke {f : UserFunction (List Token)} {args : List Value}
    (h : ∀ body, splitOperands f.body = .ok body →
      c.Rel (Same V.Good)
        (inCall f (do bindParameters f.parameters args; evalSequence self₁ .empty body))
        (inCall f (do bindParameters f.parameters args; evalSequence self₂ .empty body))) :
    c.Rel (Same V.Good) (invoke self₁ f args) (invoke self₂ f args) := by
  simp only [invoke]
  split
  · refine c.bind (c.rel_ofExcept fun body hb => hb) ?_
    intro body body' hbody
    obtain ⟨rfl, hb⟩ := hbody
    exact h body hb
  · exact c.fail _

/-- What a form needs for the two machines to agree on it. -/
structure Fits (c : Coupling V m₁ m₂) (self₁ : List Token → m₁ Value)
    (self₂ : List Token → m₂ Value) (steps₁ steps₂ : Nat) (form : List Token) : Prop where
  spells : V.Spells form
  self : ∀ xs, RunOf form xs → ∀ x ∈ xs, c.Rel (Same V.Good) (self₁ x) (self₂ x)
  loops : c.Loops steps₁ steps₂
  calls : ∀ f g args, c.Stored f g → (∀ a ∈ args, V.Good a) →
    c.Rel (Same V.Good) (invoke self₁ f args) (invoke self₂ g args)
  define : ∀ xs f, RunOf form xs → Defines xs f → c.Stored f f

namespace Fits
variable {form : List Token} (h : c.Fits self₁ self₂ steps₁ steps₂ form)
include h

theorem operands {xs : List (List Token)} (hr : RunOf form xs) : c.Operands self₁ self₂ xs := by
  intro x hx
  have hn : V.Spells x := h.spells.of_infix (hr.isInfix_of_mem hx)
  exact ⟨hn, rel_evalOperand hn (h.self xs hr x hx)⟩

theorem rel_evalBuiltin (b : Builtin) {xs : List (List Token)} (hr : RunOf form xs) :
    c.Rel (Same V.Good) (evalBuiltin self₁ steps₁ b xs) (evalBuiltin self₂ steps₂ b xs) := by
  refine c.bind (c.rel_ofExcept (P := fun _ => True) fun _ _ => trivial) fun _ _ _ => ?_
  cases b with
  | operator op => exact rel_evalOperator (h.operands hr) op
  | special form => exact rel_evalSpecial h.loops (h.operands hr) (h.define xs · hr) form

theorem rel_applyName {name : String} (hn : V.Name name) {xs : List (List Token)}
    (hr : RunOf form xs) :
    c.Rel (Same V.Good) (applyName self₁ steps₁ name xs) (applyName self₂ steps₂ name xs) := by
  simp only [applyName]
  cases Builtin.ofSymbol? name with
  | some b => exact h.rel_evalBuiltin b hr
  | none =>
    refine c.bind (c.function? hn) ?_
    rintro _ _ (⟨hf⟩ | _)
    · refine c.bind (h.operands hr).rel_evalOperands ?_
      intro args args' hargs
      obtain ⟨rfl, ha⟩ := hargs
      exact h.calls _ _ args hf ha
    · refine c.bind (c.lookup hn) ?_
      intro v v' hv
      obtain ⟨rfl, hv⟩ := hv
      cases v with
      | none => exact c.fail _
      | some v =>
        simp only
        split
        · exact c.pure ⟨rfl, hv v rfl⟩
        · exact c.fail _

theorem rel_evalInner {inner : List Token} (he : enclosed? form = some inner) :
    c.Rel (Same V.Good) (evalInner self₁ steps₁ inner) (evalInner self₂ steps₂ inner) := by
  match inner with
  | [] => exact c.fail _
  | head :: rest =>
    simp only [evalInner]
    cases hk : head.kind with
    | opening =>
      refine c.bind (c.rel_ofExcept fun xs hs => hs) ?_
      intro xs xs' hxs
      obtain ⟨rfl, hs⟩ := hxs
      exact (h.operands ⟨_, he, .inl hs⟩).rel_evalSequence V.empty
    | number =>
      refine c.bind (c.rel_ofExcept fun xs hs => hs) ?_
      intro xs xs' hxs
      obtain ⟨rfl, -⟩ := hxs
      split
      · exact c.rel_integerLiteral head.text
      · exact c.fail _
    | symbol =>
      refine c.bind (c.rel_ofExcept fun xs hs => hs) ?_
      intro xs xs' hxs
      obtain ⟨rfl, hs⟩ := hxs
      obtain ⟨first, last, rfl, -, -⟩ := enclosed?_eq_some_iff.mp he
      exact h.rel_applyName (h.spells head (by simp) hk) ⟨_, he, .inr hs⟩
    | closing => exact c.fail _

theorem rel_dispatch :
    c.Rel (Same V.Good) (dispatch self₁ steps₁ form) (dispatch self₂ steps₂ form) := by
  simp only [dispatch]
  cases he : enclosed? form with
  | none => exact c.fail _
  | some inner => exact h.rel_evalInner he

end Fits

theorem rel_evaluate {tokens : List Token}
    (h : c.Rel (Same V.Good) (evalForm steps₁ tokens) (evalForm steps₂ tokens)) :
    c.Rel (Same V.Good) (evaluate steps₁ tokens) (evaluate steps₂ tokens) := by
  match tokens with
  | [] => exact c.fail _
  | t :: ts =>
    simp only [evaluate]
    split
    · refine c.bind (c.rel_ofExcept (P := fun _ => True) fun _ _ => trivial) ?_
      intro close close' hclose
      obtain ⟨rfl, -⟩ := hclose
      split
      · exact h
      · exact c.fail _
    · exact c.fail _

theorem rel_evalForms {forms : List (List Token)}
    (h : ∀ x ∈ forms, c.Rel (Same V.Good) (evalForm steps₁ x) (evalForm steps₂ x))
    {last : Value} (hl : V.Good last) :
    c.Rel (Same V.Good) (evalForms steps₁ last forms) (evalForms steps₂ last forms) := by
  induction forms generalizing last with
  | nil => exact c.pure ⟨rfl, hl⟩
  | cons form forms ih =>
    have next := fun {v : Value} (hv : V.Good v) => ih (fun x hx => h x (by simp [hx])) hv
    have first := h form (by simp)
    match form with
    | [t] => exact c.fail _
    | [] => exact c.bind first fun v _ hv => hv.1 ▸ next hv.2
    | t :: u :: ts => exact c.bind first fun v _ hv => hv.1 ▸ next hv.2

/-- The forms of a program are the complete ones among its operands, and every one of them is
evaluated before what cuts them short is looked at. -/
theorem rel_evaluateProgram {tokens : List Token}
    (h : ∀ x, x <:+: tokens → c.Rel (Same V.Good) (evalForm steps₁ x) (evalForm steps₂ x)) :
    c.Rel (Same V.Good) (evaluateProgram steps₁ tokens) (evaluateProgram steps₂ tokens) := by
  have hforms : ∀ x ∈ (operands tokens).complete,
      c.Rel (Same V.Good) (evalForm steps₁ x) (evalForm steps₂ x) := by
    intro x hx
    exact h x ((isInfix_flatten_of_mem hx).trans (operands_isPrefix tokens).isInfix)
  refine c.bind (rel_evalForms hforms V.empty) ?_
  intro v v' hv
  obtain ⟨rfl, hv⟩ := hv
  cases (operands tokens).cutShort with
  | none => exact c.pure ⟨rfl, hv⟩
  | some cause =>
    cases cause with
    | strayClose index paren => exact c.fail _
    | unmatchedOpen index => exact c.fail _

end FlatLisp.Coupling
