import FlatLisp.Environment
import Mathlib.Data.List.Infix
import Mathlib.Logic.Function.Iterate

/-! Scopes as a stack. A scope that has been pushed takes everything that is assigned until it is
popped again, and then all is as it was before. -/
namespace FlatLisp

/-- What a host may do to the variables of an environment and to its scopes. -/
inductive ScopeStep
  | assign (name : String) (v : Value)
  | pushEmpty
  | pushCopy
  | pushIsolated
  | pushCall (rule : CallScope)
  | pop
  deriving DecidableEq

namespace ScopeStep

def isPush : ScopeStep → Bool
  | pushEmpty | pushCopy | pushIsolated | pushCall _ => true
  | assign .. | pop => false

variable {β : Type}

def apply (env : Environment β) : ScopeStep → Environment β
  | assign name v => env.assign name v
  | pushEmpty => env.pushEmpty
  | pushCopy => env.pushCopy
  | pushIsolated => env.pushIsolated
  | pushCall rule => env.pushCall rule
  | pop => env.pop

end ScopeStep

namespace Environment
variable {β : Type} {env first : Environment β} {step : ScopeStep} {steps : List ScopeStep}

def applyAll (env : Environment β) (steps : List ScopeStep) : Environment β :=
  steps.foldl ScopeStep.apply env

/-- The environment is the first one with further scopes, of which there is at least one. -/
def Above (first env : Environment β) : Prop :=
  ∃ s upper, env = { first with scopes := s :: upper ++ first.scopes }

theorem above_of_isPush (first : Environment β) (h : step.isPush) :
    Above first (step.apply first) := by
  cases step with
  | assign name v => cases h
  | pushEmpty => exact ⟨_, [], rfl⟩
  | pushCopy => exact ⟨_, [], rfl⟩
  | pushIsolated => exact ⟨_, [], rfl⟩
  | pushCall rule => cases rule <;> exact ⟨_, [], rfl⟩
  | pop => cases h

/-- A step that leaves more scopes than there were at first leaves all that were there at first. -/
theorem Above.apply (h : Above first env) (hd : first.scopeDepth < (step.apply env).scopeDepth) :
    Above first (step.apply env) := by
  obtain ⟨s, upper, rfl⟩ := h
  cases step with
  | assign name v => exact ⟨s.define name v, upper, rfl⟩
  | pushEmpty => exact ⟨_, s :: upper, rfl⟩
  | pushCopy => exact ⟨_, s :: upper, rfl⟩
  | pushIsolated => exact ⟨_, s :: upper, rfl⟩
  | pushCall rule => cases rule <;> exact ⟨_, s :: upper, rfl⟩
  | pop =>
    cases upper with
    | nil => exact absurd hd (Nat.lt_irrefl _)
    | cons s' upper => exact ⟨s', upper, rfl⟩

theorem Above.applyAll (h : Above first env)
    (hd : ∀ done, done <+: steps → first.scopeDepth < (env.applyAll done).scopeDepth) :
    Above first (env.applyAll steps) := by
  induction steps generalizing env with
  | nil => exact h
  | cons step steps ih =>
    have hstep : Above first (step.apply env) := h.apply (hd [step] ⟨steps, rfl⟩)
    refine ih hstep fun done hdone => ?_
    exact hd (step :: done) (List.prefix_cons_inj step |>.mpr hdone)

theorem Above.popped (h : Above first env) :
    Environment.pop^[env.scopeDepth - first.scopeDepth] env = first := by
  obtain ⟨s, upper, rfl⟩ := h
  have hdepth : ({ first with scopes := s :: upper ++ first.scopes } : Environment β).scopeDepth -
      first.scopeDepth = (s :: upper).length := by
    simp [scopeDepth]
    omega
  rw [hdepth]
  generalize s :: upper = scopes
  induction scopes with
  | nil => rfl
  | cons s scopes ih => exact ih

/-- A copy of the innermost scope adds nothing to what is found in that scope itself. Where it has
nothing, the search goes on with the scope that it is a copy of. -/
theorem lookup_pushCopy (env : Environment β) (name : String) :
    env.pushCopy.lookup name = env.lookup name := by
  simp only [lookup, pushCopy, push]
  cases env.scopes with
  | nil => rfl
  | cons s rest =>
    simp only [List.head?_cons, Option.getD_some, lookupIn, Scope.get?]
    cases s.bindings[name]? <;> rfl

theorem lookup_pushIsolated (env : Environment β) (name : String) :
    env.pushIsolated.lookup name = env.globals.get? name := rfl

/-- In every environment: the scope of a call that copies its caller leaves all lookups as they are,
the scope of a call with parameters only leaves the globals; and after any push, and any assignments,
pushes and pops that do not take away the scope that was pushed, pops back to the first height lead
back to the environment itself. -/
theorem scopes_are_stacked (env : Environment β) :
    (∀ name, (env.pushCall .copyCaller).lookup name = env.lookup name) ∧
    (∀ name, (env.pushCall .parametersOnly).lookup name = env.globals.get? name) ∧
    ∀ (push : ScopeStep) (steps : List ScopeStep), push.isPush →
      (∀ done, done <+: steps →
        env.scopeDepth < (env.applyAll (push :: done)).scopeDepth) →
      Environment.pop^[(env.applyAll (push :: steps)).scopeDepth - env.scopeDepth]
        (env.applyAll (push :: steps)) = env := by
  refine ⟨env.lookup_pushCopy, env.lookup_pushIsolated, ?_⟩
  intro push steps hpush hdepth
  have hfirst : Above env (push.apply env) := above_of_isPush env hpush
  exact (hfirst.applyAll hdepth).popped

/-- A call from within an isolated scope, in the course of which other scopes come and go. -/
theorem stacked_over_isolated :
    let env : Environment Unit :=
      ((({} : Environment Unit).assign "g" (.integer 1)).pushIsolated).assign "x" (.integer 2)
    let steps : List ScopeStep :=
      [.assign "x" (.integer 3), .pushIsolated, .pushEmpty, .assign "g" (.integer 4), .pop, .pop,
        .assign "y" (.text "s"), .pushCopy]
    (env.pushCall .copyCaller).lookup "x" = env.lookup "x" ∧
    (env.pushCall .parametersOnly).lookup "x" = env.globals.get? "x" ∧
    (env.applyAll (.pushCall .copyCaller :: steps)).scopeDepth = 3 ∧
    Environment.pop^[2] (env.applyAll (.pushCall .copyCaller :: steps)) = env := by
  intro env steps
  obtain ⟨hcopy, hisolated, hstack⟩ := scopes_are_stacked env
  have hdepth : ∀ done ∈ steps.inits,
      env.scopeDepth < (env.applyAll (.pushCall .copyCaller :: done)).scopeDepth := by decide +kernel
  refine ⟨hcopy "x", hisolated "x", rfl, ?_⟩
  exact hstack (.pushCall .copyCaller) steps rfl fun done h => hdepth done ((List.mem_inits ..).mpr h)

end Environment
end FlatLisp
