import FlatLisp.Proofs.Coupling.Form

/-! Couplings that hold of all forms at once, since calls and loops keep them as well. -/
namespace FlatLisp.Coupling
open Machine Eval Nesting

variable {V : Vocabulary} {m₁ m₂ : Type → Type} [Machine (List Token) m₁]
  [Machine (List Token) m₂] {c : Coupling V m₁ m₂} {Code : List Token → Prop} {extra : Nat}

/-- The coupling is kept by calls and by rounds of loops, and by a shortage of steps on the first
machine, where the second one has `extra` steps more. `Code` says which forms are looked at. -/
structure Uniform (c : Coupling V m₁ m₂) (Code : List Token → Prop) (extra : Nat) : Prop where
  spells {form : List Token} : Code form → V.Spells form
  operand {form x : List Token} {xs : List (List Token)} :
    Code form → RunOf form xs → x ∈ xs → Code x
  stored_eq {f g : UserFunction (List Token)} : c.Stored f g → f = g
  parameter {f : UserFunction (List Token)} : c.Stored f f → ∀ p ∈ f.parameters, V.Name p
  body {f : UserFunction (List Token)} {xs : List (List Token)} :
    c.Stored f f → splitOperands f.body = .ok xs → ∀ x ∈ xs, Code x
  define {form : List Token} {xs : List (List Token)} {f : UserFunction (List Token)} :
    Code form → RunOf form xs → Defines xs f → c.Stored f f
  exhausted {y : m₂ Value} :
    (extra = 0 → y = exhausted) → c.Rel (Same V.Good) exhausted y
  startRound (n : Nat) : c.Rel Eq (startRound n) (startRound n)
  inCall {f : UserFunction (List Token)} {x : m₁ Value} {y : m₂ Value} :
    c.Stored f f → c.Rel (Same V.Good) x y → c.Rel (Same V.Good) (inCall f x) (inCall f y)

/-- A coupling of equal functions over all names and values looks at every form. -/
theorem Uniform.of_full {c : Coupling .full m₁ m₂} (hs : ∀ f g, c.Stored f g ↔ f = g)
    (hx : ∀ y : m₂ Value, (extra = 0 → y = Machine.exhausted) →
      c.Rel (Same fun _ => True) Machine.exhausted y)
    (hr : ∀ n, c.Rel Eq (Machine.startRound n) (Machine.startRound n))
    (hc : ∀ (f : UserFunction (List Token)) (x : m₁ Value) (y : m₂ Value),
      c.Rel (Same fun _ => True) x y →
        c.Rel (Same fun _ => True) (Machine.inCall f x) (Machine.inCall f y)) :
    c.Uniform (fun _ => True) extra where
  spells _ := Vocabulary.full_spells _
  operand _ _ _ := trivial
  stored_eq := (hs _ _).mp
  parameter _ _ _ := trivial
  body _ _ _ _ := trivial
  define _ _ _ := (hs _ _).mpr rfl
  exhausted := hx _
  startRound := hr
  inCall _ := hc _ _ _

/-- With the same steps on both machines, both run out of them at once. -/
theorem Uniform.of_full_zero {c : Coupling .full m₁ m₂} (hs : ∀ f g, c.Stored f g ↔ f = g)
    (hx : c.Rel (Same fun _ => True) (Machine.exhausted : m₁ Value) (Machine.exhausted : m₂ Value))
    (hr : ∀ n, c.Rel Eq (Machine.startRound n) (Machine.startRound n))
    (hc : ∀ (f : UserFunction (List Token)) (x : m₁ Value) (y : m₂ Value),
      c.Rel (Same fun _ => True) x y →
        c.Rel (Same fun _ => True) (Machine.inCall f x) (Machine.inCall f y)) :
    c.Uniform (fun _ => True) 0 :=
  of_full hs (fun _ hy => hy rfl ▸ hx) hr hc

namespace Uniform
variable (u : c.Uniform Code extra)
include u

theorem loops (steps : Nat) : c.Loops steps (steps + extra) :=
  fun _ _ _ _ hc hb =>
    c.rel_loop (fun _ => u.exhausted) u.startRound hc hb steps 0 (V.integer 0)

/-- Where the extra steps are for the forms alone, a loop has the same number on both machines. -/
theorem loops_alike (steps : Nat) : c.Loops steps steps := by
  intro condition₁ condition₂ body₁ body₂ hc hb
  have hshort : ∀ y : m₂ Value, (0 = 0 → y = Machine.exhausted) →
      c.Rel (Same V.Good) Machine.exhausted y := fun y hy => u.exhausted fun _ => hy rfl
  exact c.rel_loop hshort u.startRound hc hb steps 0 (V.integer 0)

/-- By induction on the steps, since a body is run with fewer of them but may be longer than the
form that calls it. -/
theorem rel_evalForm (steps : Nat) {form : List Token} (hf : Code form) :
    c.Rel (Same V.Good) (evalForm steps form) (evalForm (steps + extra) form) := by
  induction steps generalizing form with
  | zero =>
    apply u.exhausted
    rintro rfl
    rfl
  | succ steps ih =>
    rw [Nat.succ_add]
    refine c.inForm form (Fits.rel_dispatch ?_)
    refine {
      spells := u.spells hf
      self := fun xs hr x hx => ih (u.operand hf hr hx)
      loops := u.loops steps
      calls := ?_
      define := fun xs f hr => u.define hf hr }
    intro f g args hfg ha
    obtain rfl := u.stored_eq hfg
    refine rel_invoke fun body hb => u.inCall hfg (rel_callBody (u.parameter hfg) ha ?_)
    intro x hx
    have hcode : Code x := u.body hfg hb x hx
    exact ⟨u.spells hcode, rel_evalOperand (u.spells hcode) (ih hcode)⟩

theorem operands (steps : Nat) {xs : List (List Token)} (h : ∀ x ∈ xs, Code x) :
    c.Operands (evalForm steps) (evalForm (steps + extra)) xs := by
  intro x hx
  have hn : V.Spells x := u.spells (h x hx)
  exact ⟨hn, rel_evalOperand hn (u.rel_evalForm steps (h x hx))⟩

theorem rel_callBody (steps : Nat) (names : List String) (args : List Value)
    {body : List (List Token)} (hn : ∀ n ∈ names, V.Name n) (ha : ∀ a ∈ args, V.Good a)
    (hb : ∀ x ∈ body, Code x) :
    c.Rel (Same V.Good)
      (do bindParameters names args; evalSequence (evalForm steps) .empty body)
      (do bindParameters names args; evalSequence (evalForm (steps + extra)) .empty body) :=
  Coupling.rel_callBody hn ha (u.operands steps hb)

theorem rel_evalSpecial (steps rounds : Nat) (form : SpecialForm) {xs : List (List Token)}
    (h : ∀ x ∈ xs, Code x) (hd : ∀ f, Defines xs f → c.Stored f f) :
    c.Rel (Same V.Good) (evalSpecial (evalForm steps) rounds form xs)
      (evalSpecial (evalForm (steps + extra)) (rounds + extra) form xs) :=
  Coupling.rel_evalSpecial (u.loops rounds) (u.operands steps h) hd form

theorem rel_evaluate (steps : Nat) {tokens : List Token} (h : Code tokens) :
    c.Rel (Same V.Good) (evaluate steps tokens) (evaluate (steps + extra) tokens) :=
  Coupling.rel_evaluate (u.rel_evalForm steps h)

theorem rel_evaluateProgram (steps : Nat) {tokens : List Token}
    (h : ∀ x, x <:+: tokens → Code x) :
    c.Rel (Same V.Good) (evaluateProgram steps tokens)
      (evaluateProgram (steps + extra) tokens) :=
  Coupling.rel_evaluateProgram fun x hx => u.rel_evalForm steps (h x hx)

end Uniform
end FlatLisp.Coupling
