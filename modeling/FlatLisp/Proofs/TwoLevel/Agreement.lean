import FlatLisp.Proofs.Frame
import FlatLisp.Proofs.TwoLevel.Evaluation

/-! A stack of scopes serves as two levels. Lookups are decided by the innermost scope or by the
globals, and the scopes in between only wait for the calls within them to come back. -/
namespace FlatLisp
open Machine Eval Nesting Evaluation

variable {β α α₁ α₂ γ₁ γ₂ : Type}

/-- A program as an evaluation on two levels that runs with a number of steps. -/
abbrev TwoLevelEvaluation.ofProgram (tokens : List Token) (steps : Nat) :
    TwoLevelEvaluation (List Token) Value := evaluateProgram steps tokens

/-- The state without the scopes around the innermost one. -/
def State.twoLevel (s : State β) : TwoLevelState β where
  globals := s.env.globals
  locals := s.env.scopes.head?.map (·.bindings)
  functions := s.env.functions
  depth := s.env.depth
  recursionLimit := s.env.recursionLimit
  output := s.output

/-- Among the scopes, the innermost one decides every lookup. -/
def Shallow (scopes : List Scope) : Prop :=
  ∀ name, Environment.lookupIn name scopes = scopes.head?.bind (·.get? name)

theorem shallow_nil : Shallow [] := fun _ => rfl

theorem shallow_cons_iff {a : Scope} {rest : List Scope} :
    Shallow (a :: rest) ↔
      ∀ name, a.get? name = none → a.isolated = false →
        Environment.lookupIn name rest = none := by
  refine forall_congr' fun name => ?_
  simp only [Environment.lookupIn, List.head?_cons, Option.bind_some]
  cases a.get? name with
  | some v => simp
  | none => cases a.isolated <;> simp

namespace Shallow

theorem of_isolated {a : Scope} (ha : a.isolated = true) (rest : List Scope) :
    Shallow (a :: rest) :=
  shallow_cons_iff.mpr fun _ _ hi => nomatch ha.symm.trans hi

theorem define {a : Scope} {rest : List Scope} (h : Shallow (a :: rest)) (name : String)
    (v : Value) : Shallow (a.define name v :: rest) := by
  rw [shallow_cons_iff] at h ⊢
  intro other ho hi
  rw [Scope.get?_define] at ho
  split at ho
  · cases ho
  · exact h other ho hi

theorem assign {env : Environment β} (h : Shallow env.scopes) (name : String) (v : Value) :
    Shallow (env.assign name v).scopes := by
  simp only [Environment.assign]
  split
  · exact h
  · rename_i he
    rw [he] at h
    exact h.define name v

/-- The copy of a scope binds all that can be looked up in it. -/
theorem pushCall (env : Environment β) (h : Shallow env.scopes) (rule : CallScope) :
    Shallow (env.pushCall rule).scopes := by
  cases rule with
  | parametersOnly => exact of_isolated rfl env.scopes
  | copyCaller =>
    refine shallow_cons_iff.mpr fun name hn _ => ?_
    rw [h name]
    cases hs : env.scopes.head? with
    | none => rfl
    | some a => simpa [hs, Scope.get?] using hn

end Shallow

/-- The state is such that lookups only need two levels, which are those of the other one, and
the scopes around the innermost one are `outer`. -/
structure Levels (outer : List Scope) (s : State β) (t : TwoLevelState β) : Prop where
  twoLevel_eq : t = s.twoLevel
  shallow : Shallow s.env.scopes
  outer : s.env.scopes.tail = outer

namespace Levels
variable {s : State β}

theorem lookup (h : Shallow s.env.scopes) (name : String) :
    s.env.lookup name = s.twoLevel.lookup name := by
  simp only [Environment.lookup, TwoLevelState.lookup, State.twoLevel, h name, Option.bind_map]
  rfl

theorem assign (h : Shallow s.env.scopes) (name : String) (v : Value) :
    Levels s.env.scopes.tail { s with env := s.env.assign name v } (s.twoLevel.assign name v) := by
  refine ⟨?_, h.assign name v, ?_⟩
  · simp only [TwoLevelState.assign, State.twoLevel, Environment.assign]
    cases s.env.scopes <;> rfl
  · simp only [Environment.assign]
    split
    · rfl
    · rename_i he
      rw [he]
      rfl

/-- A call begins on two levels as it does on the stack. -/
theorem enter (h : Shallow s.env.scopes) (rule : CallScope) :
    Levels s.env.scopes
      { s with env := { s.env with depth := s.env.depth + 1 }.pushCall rule }
      { s.twoLevel with
        locals := some (s.twoLevel.localsOfCall rule)
        depth := s.twoLevel.depth + 1 } := by
  refine ⟨?_, Shallow.pushCall { s.env with depth := s.env.depth + 1 } h rule, ?_⟩
  · cases rule with
    | parametersOnly => rfl
    | copyCaller =>
      simp only [State.twoLevel, TwoLevelState.localsOfCall]
      cases s.env.scopes <;> rfl
  · obtain ⟨a, ha⟩ := Environment.pushCall_eq { s.env with depth := s.env.depth + 1 } rule
    rw [ha]
    rfl

/-- The variables that the two levels had before a call are still those of the stack. -/
theorem exit {t : State β} (h : Shallow s.env.scopes) (ht : t.env.scopes.tail = s.env.scopes) :
    Levels s.env.scopes.tail { t with env := t.env.pop.exit }
      { t.twoLevel with locals := s.twoLevel.locals, depth := t.twoLevel.depth - 1 } := by
  refine ⟨?_, ?_, ?_⟩
  · simp only [State.twoLevel, Environment.exit, Environment.pop, ht]
  · simpa only [Environment.exit, Environment.pop, ht] using h
  · simp only [Environment.exit, Environment.pop, ht]

end Levels

/-- The two-level run goes the way of the other one, which leaves the outer scopes as they are. -/
def RunsOnTwoLevels (A : α₁ → α₂ → Prop) (x : Evaluation β α₁) (y : TwoLevelEvaluation β α₂) :
    Prop :=
  ∀ o s, Shallow s.env.scopes →
    Follows (fun _ => False) (Levels s.env.scopes.tail) A (x o s) (y o s.twoLevel)

namespace RunsOnTwoLevels
variable {A : α₁ → α₂ → Prop} {C : γ₁ → γ₂ → Prop} {x : Evaluation β α₁}
  {y : TwoLevelEvaluation β α₂}

theorem of_ok {f : State β → α₁} {step : State β → State β} {g : TwoLevelState β → α₂}
    {step' : TwoLevelState β → TwoLevelState β}
    (h : ∀ s, Shallow s.env.scopes → A (f s) (g s.twoLevel) ∧
      Levels s.env.scopes.tail (step s) (step' s.twoLevel)) :
    RunsOnTwoLevels A (fun _ s => some (.ok (f s), step s))
      (fun _ s => some (.ok (g s), step' s)) :=
  fun _ s hs => .ok (h s hs).1 (h s hs).2

theorem bind {f : α₁ → Evaluation β γ₁} {g : α₂ → TwoLevelEvaluation β γ₂}
    (hx : RunsOnTwoLevels A x y) (hf : ∀ a b, A a b → RunsOnTwoLevels C (f a) (g b)) :
    RunsOnTwoLevels C (x >>= f) (y >>= g) := by
  intro o s hs
  have h := hx o s hs
  simp only [Bind.bind]
  generalize x o s = p at h
  generalize y o s.twoLevel = q at h
  cases h with
  | ok hr hl =>
    obtain ⟨rfl, hshallow, houter⟩ := hl
    exact houter ▸ hf _ _ hr o _ hshallow
  | error hl => exact .error hl
  | exhausted => exact .exhausted
  | short h => exact h.elim
  | lost h => exact h.elim

theorem located (form : List Token) (hx : RunsOnTwoLevels A x y) :
    RunsOnTwoLevels A (Evaluation.located form x) (TwoLevelEvaluation.located form y) := by
  intro o s hs
  have h := hx o s hs
  simp only [Evaluation.located, TwoLevelEvaluation.located]
  generalize x o s = p at h
  generalize y o s.twoLevel = q at h
  cases h with
  | ok hr hl => exact .ok hr hl
  | error hl => exact .error hl
  | exhausted => exact .exhausted
  | short h => exact h.elim
  | lost h => exact h.elim

theorem called (hx : RunsOnTwoLevels A x y) :
    RunsOnTwoLevels A (Evaluation.called x) (TwoLevelEvaluation.called y) := by
  intro o s hs
  simp only [Evaluation.called, TwoLevelEvaluation.called]
  cases he : s.env.enter with
  | error f =>
    obtain ⟨hd, rfl⟩ := Environment.enter_eq_error_iff.mp he
    rw [if_pos (show s.twoLevel.recursionLimit ≤ s.twoLevel.depth from hd)]
    exact .error ⟨rfl, hs, rfl⟩
  | ok e =>
    obtain ⟨hd, rfl⟩ := Environment.enter_eq_ok_iff.mp he
    rw [if_neg (show ¬ s.twoLevel.recursionLimit ≤ s.twoLevel.depth from Nat.not_le.mpr hd)]
    obtain ⟨heq, hshallow, houter⟩ := Levels.enter hs o.callScope
    have hbody := hx o _ hshallow
    rw [houter, ← heq] at hbody
    simp only
    generalize x o _ = p at hbody ⊢
    generalize y o _ = q at hbody ⊢
    cases hbody with
    | ok hr hl =>
      obtain ⟨rfl, -, ht⟩ := hl
      exact .ok hr (.exit hs ht)
    | error hl =>
      obtain ⟨rfl, -, ht⟩ := hl
      exact .error (.exit hs ht)
    | exhausted => exact .exhausted
    | short h => exact h.elim
    | lost h => exact h.elim

end RunsOnTwoLevels

def onTwoLevels : Coupling .full (Evaluation (List Token)) (TwoLevelEvaluation (List Token)) where
  Stored := Eq
  Rel := RunsOnTwoLevels
  pure h := .of_ok fun _ hs => ⟨h, rfl, hs, rfl⟩
  bind := .bind
  fail _ _ _ hs := .error ⟨rfl, hs, rfl⟩
  inForm := .located
  lookup _ := .of_ok fun _ hs => ⟨⟨Levels.lookup hs _, fun _ _ => trivial⟩, rfl, hs, rfl⟩
  assign _ _ := .of_ok fun _ hs => ⟨rfl, .assign hs _ _⟩
  function? _ := .of_ok fun _ hs => ⟨optionRel_eq _, rfl, hs, rfl⟩
  define hf := .of_ok fun _ hs => ⟨rfl, hf ▸ rfl, hs, rfl⟩
  print _ := .of_ok fun _ hs => ⟨rfl, rfl, hs, rfl⟩

theorem onTwoLevels_uniform : onTwoLevels.Uniform (fun _ => True) 0 := by
  apply Coupling.Uniform.of_full_zero
  · exact fun _ _ => Iff.rfl
  · exact fun _ _ _ => .exhausted
  · intro n o s hs
    have hl : Levels s.env.scopes.tail s s.twoLevel := ⟨rfl, hs, rfl⟩
    simp only [startRound, Evaluation.guardRound, TwoLevelEvaluation.guardRound]
    cases o.roundLimit with
    | none => exact .ok rfl hl
    | some limit =>
      simp only
      split
      · exact .error hl
      · exact .ok rfl hl
  · exact fun f x y h => h.called

theorem eq_of_follows_twoLevel {P : α → Prop} {outer : List Scope}
    {x : Option (Except Error α × State β)} {y : Option (Except Error α × TwoLevelState β)}
    (h : Follows (fun _ => False) (Levels outer) (Same P) x y) :
    y = x.map (Prod.map id State.twoLevel) ∧ ∀ r ∈ x, r.2.env.scopes.tail = outer := by
  cases h with
  | ok hr hl =>
    obtain ⟨rfl, -⟩ := hr
    obtain ⟨rfl, -, ht⟩ := hl
    refine ⟨rfl, ?_⟩
    rintro _ ⟨⟩
    exact ht
  | error hl =>
    obtain ⟨rfl, -, ht⟩ := hl
    refine ⟨rfl, ?_⟩
    rintro _ ⟨⟩
    exact ht
  | exhausted => exact ⟨rfl, by simp⟩
  | short h => exact h.elim
  | lost h => exact h.elim

/-- After every number of steps, a program is on two levels where it is on the stack. -/
theorem ofProgram_twoLevel (tokens : List Token) (steps : Nat) (o : Options)
    {s : State (List Token)} (hs : Shallow s.env.scopes) :
    TwoLevelEvaluation.ofProgram tokens steps o s.twoLevel =
      (ofProgram tokens steps o s).map (Prod.map id State.twoLevel) :=
  (eq_of_follows_twoLevel (onTwoLevels_uniform.rel_evaluateProgram steps
    (fun x (_ : x <:+: tokens) => trivial) o s hs)).1

end FlatLisp
