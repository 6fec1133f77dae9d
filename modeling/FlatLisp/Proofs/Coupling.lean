import FlatLisp.Eval.Form

/-! Couplings: relations between evaluations on two machines that hold of everything an evaluator
does as soon as they hold of its effects. -/
namespace FlatLisp
open Machine Eval

/-- The names and values that may come up in an evaluation. -/
structure Vocabulary where
  Name : String → Prop
  Good : Value → Prop
  integer (n : Int64) : Good (.integer n)
  text {name : String} : Name name → Good (.text name)
  empty : Good .empty
  normalized {v : Value} : Good v → Good v.normalized
  result {op : Operator} {args : List Value} {v : Value} :
    (∀ a ∈ args, Good a) → op.apply args = .ok v → Good v

namespace Vocabulary

/-- Every name and every value. -/
def full : Vocabulary where
  Name _ := True
  Good _ := True
  integer _ := trivial
  text _ := trivial
  empty := trivial
  normalized _ := trivial
  result _ _ := trivial

/-- The symbols among the tokens are names of the vocabulary. -/
def Spells (V : Vocabulary) (tokens : List Token) : Prop :=
  ∀ t ∈ tokens, t.kind = .symbol → V.Name t.text

theorem full_spells (tokens : List Token) : full.Spells tokens := fun _ _ _ => trivial

theorem Spells.of_infix {V : Vocabulary} {xs ys : List Token} (h : V.Spells ys)
    (hx : xs <:+: ys) : V.Spells xs := fun t ht => h t (hx.subset ht)

end Vocabulary

/-- Equal results that have a property. -/
def Same {α : Type} (P : α → Prop) (a b : α) : Prop := a = b ∧ P a

theorem optionRel_eq {α : Type} (x : Option α) : Option.Rel Eq x x := by
  cases x with
  | none => exact .none
  | some a => exact .some rfl

/-- A relation between the evaluations on two machines. `Rel A` says that two of them belong
together and that `A` holds of their results. Calls and loops are left out, since what they need
differs from one relation to the next. -/
structure Coupling (V : Vocabulary) {β₁ β₂ : Type} (m₁ m₂ : Type → Type)
    [Machine β₁ m₁] [Machine β₂ m₂] where
  /-- The functions that may be stored on the two sides. -/
  Stored : UserFunction β₁ → UserFunction β₂ → Prop
  Rel {α₁ α₂ : Type} : (α₁ → α₂ → Prop) → m₁ α₁ → m₂ α₂ → Prop
  pure {α₁ α₂ : Type} {A : α₁ → α₂ → Prop} {a : α₁} {b : α₂} :
    A a b → Rel A (pure a) (pure b)
  bind {α₁ α₂ γ₁ γ₂ : Type} {A : α₁ → α₂ → Prop} {C : γ₁ → γ₂ → Prop}
    {x : m₁ α₁} {y : m₂ α₂} {f : α₁ → m₁ γ₁} {g : α₂ → m₂ γ₂} :
    Rel A x y → (∀ a b, A a b → Rel C (f a) (g b)) → Rel C (x >>= f) (y >>= g)
  fail {α₁ α₂ : Type} {A : α₁ → α₂ → Prop} (f : Fault) : Rel A (fail f) (fail f)
  inForm {α₁ α₂ : Type} {A : α₁ → α₂ → Prop} {x : m₁ α₁} {y : m₂ α₂} (form : List Token) :
    Rel A x y → Rel A (inForm form x) (inForm form y)
  lookup {name : String} :
    V.Name name → Rel (Same fun v => ∀ w ∈ v, V.Good w) (lookup name) (lookup name)
  assign {name : String} {v : Value} : V.Name name → V.Good v →
    Rel Eq (assign name v.normalized) (assign name v.normalized)
  function? {name : String} :
    V.Name name → Rel (Option.Rel Stored) (function? name) (function? name)
  define {f : UserFunction β₁} {g : UserFunction β₂} :
    Stored f g → Rel Eq (define f) (define g)
  print {v : Value} : V.Good v → Rel Eq (print v.display) (print v.display)

namespace Coupling
variable {V : Vocabulary} {β₁ β₂ : Type} {m₁ m₂ : Type → Type} [Machine β₁ m₁] [Machine β₂ m₂]
  (c : Coupling V m₁ m₂)

theorem rel_ofExcept {α : Type} {P : α → Prop} {x : Except Fault α}
    (h : ∀ a, x = .ok a → P a) : c.Rel (Same P) (ofExcept x) (ofExcept x) := by
  cases x with
  | ok a => exact c.pure ⟨rfl, h a rfl⟩
  | error f => exact c.fail f

theorem rel_integerLiteral (text : String) :
    c.Rel (Same V.Good) (integerLiteral text) (integerLiteral text) := by
  simp only [integerLiteral]
  cases Integer.read? text with
  | some n => exact c.pure ⟨rfl, V.integer n⟩
  | none => exact c.fail _

theorem rel_evalSymbol {name : String} (hn : V.Name name) :
    c.Rel (Same V.Good) (evalSymbol name) (evalSymbol name) := by
  refine c.bind (c.lookup hn) ?_
  intro v v' hv
  obtain ⟨rfl, hv⟩ := hv
  refine c.pure ⟨rfl, ?_⟩
  cases v with
  | none => exact V.text hn
  | some w => exact hv w rfl

theorem rel_bindParameters {names : List String} {args : List Value}
    (hn : ∀ n ∈ names, V.Name n) (ha : ∀ a ∈ args, V.Good a) :
    c.Rel Eq (bindParameters names args) (bindParameters names args) := by
  induction names generalizing args with
  | nil => exact c.pure rfl
  | cons name names ih =>
    cases args with
    | nil => exact c.pure rfl
    | cons v vs =>
      refine c.bind (c.assign (hn name (by simp)) (ha v (by simp))) fun _ _ _ => ?_
      exact ih (fun n h => hn n (by simp [h])) (fun a h => ha a (by simp [h]))

/-- The second machine may have `extra` steps that the first one has not. -/
theorem rel_loop {extra : Nat} {condition₁ body₁ : m₁ Value} {condition₂ body₂ : m₂ Value}
    (hx : ∀ y : m₂ Value, (extra = 0 → y = exhausted) → c.Rel (Same V.Good) exhausted y)
    (hr : ∀ n, c.Rel Eq (startRound n) (startRound n))
    (hc : c.Rel (Same V.Good) condition₁ condition₂) (hb : c.Rel (Same V.Good) body₁ body₂)
    (steps rounds : Nat) {last : Value} (hl : V.Good last) :
    c.Rel (Same V.Good) (loop condition₁ body₁ steps rounds last)
      (loop condition₂ body₂ (steps + extra) rounds last) := by
  induction steps generalizing rounds last with
  | zero =>
    apply hx
    rintro rfl
    rfl
  | succ steps ih =>
    rw [Nat.succ_add]
    refine c.bind hc ?_
    intro v v' hv
    obtain ⟨rfl, -⟩ := hv
    cases hv : v.isTruthy with
    | false => simpa [hv] using c.pure ⟨rfl, hl⟩
    | true =>
      simp only [if_true]
      refine c.bind (hr rounds) fun _ _ _ => c.bind hb ?_
      intro w w' hw
      obtain ⟨rfl, hw⟩ := hw
      exact ih (rounds + 1) hw

end Coupling
end FlatLisp
