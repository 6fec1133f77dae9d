import FlatLisp.Environment

/-! What the operations of an environment do to each of its parts. -/
namespace FlatLisp.Environment

variable {β : Type} {env : Environment β}

theorem enter_eq_ok_iff {entered : Environment β} :
    env.enter = .ok entered ↔
      env.depth < env.recursionLimit ∧ entered = { env with depth := env.depth + 1 } := by
  unfold enter
  split
  · simp only [reduceCtorEq, false_iff]
    omega
  · simp only [Except.ok.injEq]
    exact ⟨fun h => ⟨by omega, h.symm⟩, fun h => h.2.symm⟩

theorem enter_eq_error_iff {f : Fault} :
    env.enter = .error f ↔
      env.recursionLimit ≤ env.depth ∧ f = .recursionLimit env.recursionLimit := by
  simp only [enter]
  split
  · simp only [Except.error.injEq]
    exact ⟨fun h => ⟨‹_›, h.symm⟩, fun h => h.2.symm⟩
  · simp only [reduceCtorEq, false_iff]
    omega

variable (env)

/-- Besides the scopes, a scope for a call leaves everything as it is. -/
theorem pushCall_eq (rule : CallScope) :
    ∃ a, env.pushCall rule = { env with scopes := a :: env.scopes } := by
  cases rule with
  | copyCaller => exact ⟨_, rfl⟩
  | parametersOnly => exact ⟨_, rfl⟩

/-- Besides the scopes and the globals, an assignment leaves everything as it is. -/
theorem assign_eq (name : String) (v : Value) :
    env.assign name v =
      { env with
        globals := (env.assign name v).globals
        scopes := (env.assign name v).scopes } := by
  simp only [assign]
  split <;> rfl

theorem length_scopes_assign (name : String) (v : Value) :
    (env.assign name v).scopes.length = env.scopes.length := by
  simp only [assign]
  split <;> simp [*]

end FlatLisp.Environment
