import FlatLisp.Proofs.Coupling.Following
import FlatLisp.Proofs.Coupling.Uniform

/-! Evaluations that end. How they end does not depend on the number of steps that they are given,
as long as it is enough. -/
namespace FlatLisp
open Machine

/-- A program as an evaluation that runs with a number of steps. -/
abbrev Evaluation.ofProgram (tokens : List Token) (steps : Nat) : Evaluation (List Token) Value :=
  evaluateProgram steps tokens

/-- Tokens that should be one form, likewise. -/
abbrev Evaluation.ofForm (tokens : List Token) (steps : Nat) : Evaluation (List Token) Value :=
  evaluate steps tokens

/-- A special form on operands of its own, whose loops have a number of rounds to run. -/
abbrev Evaluation.ofSpecial (form : SpecialForm) (operands : List (List Token))
    (rounds steps : Nat) : Evaluation (List Token) Value :=
  Eval.evalSpecial (evalForm steps) rounds form operands

/-- The fault of an outcome, if it is an error. -/
def faultOf? {α : Type} : Except Error α → Option Fault
  | .ok _ => none
  | .error e => some e.fault

/-- With enough steps, and however many more, the evaluation ends with the outcome and the state. -/
def EndsIn {β α : Type} (x : Nat → Evaluation β α) (o : Options) (s : State β)
    (r : Except Error α × State β) : Prop :=
  ∃ n, ∀ steps, n ≤ steps → x steps o s = some r

theorem EndsIn.unique {β α : Type} {x : Nat → Evaluation β α} {o : Options} {s : State β}
    {p q : Except Error α × State β} (hp : EndsIn x o s p) (hq : EndsIn x o s q) : p = q := by
  obtain ⟨m, hm⟩ := hp
  obtain ⟨n, hn⟩ := hq
  have he := (hm (max m n) (Nat.le_max_left m n)).symm.trans (hn _ (Nat.le_max_right m n))
  exact Option.some.inj he

section Bind
variable {β α γ : Type} {o : Options} {s t : State β} {a : α} {e : Error}

theorem Evaluation.bind_of_ok {x : Evaluation β α} (hx : x o s = some (.ok a, t))
    (f : α → Evaluation β γ) : (x >>= f) o s = f a o t := by
  simp only [Bind.bind, hx]

theorem Evaluation.bind_of_error {x : Evaluation β α} (hx : x o s = some (.error e, t))
    (f : α → Evaluation β γ) : (x >>= f) o s = some (.error e, t) := by
  simp only [Bind.bind, hx]

variable {x : Nat → Evaluation β α} {f : Nat → α → Evaluation β γ}

theorem EndsIn.bind_ok {p : Except Error γ × State β} (hx : EndsIn x o s (.ok a, t))
    (hf : EndsIn (f · a) o t p) : EndsIn (fun n => x n >>= f n) o s p := by
  obtain ⟨m, hm⟩ := hx
  obtain ⟨n, hn⟩ := hf
  refine ⟨max m n, fun steps hle => ?_⟩
  obtain ⟨hlm, hln⟩ := Nat.max_le.mp hle
  exact (Evaluation.bind_of_ok (hm steps hlm) _).trans (hn steps hln)

theorem EndsIn.bind_error (hx : EndsIn x o s (.error e, t)) :
    EndsIn (fun n => x n >>= f n) o s (.error e, t) := by
  obtain ⟨n, hn⟩ := hx
  exact ⟨n, fun steps hle => Evaluation.bind_of_error (hn steps hle) _⟩

end Bind

/-- A run that goes well, by its value and the lines printed. -/
theorem exists_ok_of_run {β α : Type} {p : Option (Except Error α × State β)} {a : α}
    {lines : Array String}
    (h : (p.bind fun q => q.1.toOption.map fun b => (b, q.2.output)) = some (a, lines)) :
    ∃ t, p = some (.ok a, t) ∧ t.output = lines := by
  obtain ⟨⟨_ | b, t⟩, hp, hb⟩ := Option.bind_eq_some_iff.mp h
  · cases hb
  · obtain ⟨rfl, hout⟩ : b = a ∧ t.output = lines := by
      simpa [Except.toOption] using hb
    exact ⟨t, hp, hout⟩

theorem correspondence_eq {β : Type} : Correspondence .full Eq (@Eq (State β)) where
  lookup := by
    intro s t name _ h
    subst h
    exact ⟨rfl, fun _ _ => trivial⟩
  assign := by
    intro s t name v _ _ h
    rw [h]
  function? := by
    intro s t name _ h
    subst h
    exact optionRel_eq _
  define := by
    intro s t f g hf h
    rw [hf, h]
  print := by
    intro s t v _ h
    rw [h]

theorem calls_eq {β : Type} (lost : Option Fault → Prop) (o : Options) :
    Calls lost (@Eq (State β)) o o where
  refused := by
    intro s t f h he
    subst h
    exact .inr he
  entered := by
    intro s t e h he
    subst h
    exact ⟨e, he, rfl⟩
  left := by
    intro s t h
    rw [h]

/-- Equal runs, as far as the steps of the first one go. -/
def moreSteps (o : Options) : Coupling .full (Evaluation (List Token)) (Evaluation (List Token)) :=
  correspondence_eq.coupling (· = none) o o

theorem moreSteps_uniform (o : Options) (extra : Nat) :
    (moreSteps o).Uniform (fun _ => True) extra := by
  apply Coupling.Uniform.of_full
  · exact fun _ _ => Iff.rfl
  · exact fun _ _ _ _ _ => .short rfl
  · intro n s t h
    subst h
    exact .refl _
  · intro f x y hxy s t h
    exact Follows.called (calls_eq _ o) h hxy

theorem eq_of_follows_eq {β α : Type} {P : α → Prop} {x y : Option (Except Error α × State β)}
    {r : Except Error α × State β}
    (h : Follows (· = none) Eq (Same P) x y) (hx : x = some r) : y = some r := by
  subst hx
  cases h with
  | ok hr hs => rw [hr.1, hs]
  | error hs => rw [hs]
  | lost h => cases h

/-- Where more steps make no difference to an evaluation with enough of them, it ends as soon as
some number of steps is enough. -/
theorem endsIn_iff {α : Type} {P : α → Prop} {x : Nat → Evaluation (List Token) α} {o : Options}
    (h : ∀ steps extra, (moreSteps o).Rel (Same P) (x steps) (x (steps + extra)))
    {s : State (List Token)} {r : Except Error α × State (List Token)} :
    EndsIn x o s r ↔ ∃ steps, x steps o s = some r := by
  constructor
  · intro hends
    obtain ⟨n, hn⟩ := hends
    exact ⟨n, hn n (Nat.le_refl n)⟩
  · intro hsome
    obtain ⟨n, hn⟩ := hsome
    refine ⟨n, fun steps hm => ?_⟩
    obtain ⟨extra, rfl⟩ := Nat.exists_eq_add_of_le hm
    exact eq_of_follows_eq (h n extra s s rfl) hn

section
open Evaluation

variable {tokens : List Token} {o : Options} {s : State (List Token)}
  {r : Except Error Value × State (List Token)}

theorem endsIn_ofProgram_iff :
    EndsIn (ofProgram tokens) o s r ↔ ∃ steps, ofProgram tokens steps o s = some r :=
  endsIn_iff fun steps extra =>
    (moreSteps_uniform o extra).rel_evaluateProgram steps fun x (_ : x <:+: tokens) => trivial

theorem endsIn_ofForm_iff :
    EndsIn (ofForm tokens) o s r ↔ ∃ steps, ofForm tokens steps o s = some r :=
  endsIn_iff fun steps extra => (moreSteps_uniform o extra).rel_evaluate steps trivial

theorem endsIn_of_toOption {steps : Nat} {v : Value}
    (h : (ofProgram tokens steps o s).bind (·.1.toOption) = some v) :
    ∃ t, EndsIn (ofProgram tokens) o s (.ok v, t) := by
  obtain ⟨⟨r, t⟩, hr, hv⟩ := Option.bind_eq_some_iff.mp h
  cases r with
  | error e => cases hv
  | ok w =>
    obtain rfl : w = v := Option.some.inj hv
    exact ⟨t, endsIn_ofProgram_iff.mpr ⟨steps, hr⟩⟩

end
end FlatLisp
