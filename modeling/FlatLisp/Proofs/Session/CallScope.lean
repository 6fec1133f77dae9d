import FlatLisp.Proofs.CallScope

/-! Sessions under the two rules for the scope of a call. They go apart with a call within a call
and not before. -/
namespace FlatLisp.Session

/-- The executions of source texts one after another, whether they succeed or not. -/
def executeAll (steps : Nat) : Session → List String → Option (List Execution × Session)
  | s, [] => some ([], s)
  | s, source :: sources => do
    let (x, t) ← s.execute steps source
    let (xs, u) ← t.executeAll steps sources
    return (x :: xs, u)

/-- All moments of these executions. -/
def moments (steps : Nat) : Session → List String → List (Moment (List Token))
  | _, [] => []
  | s, source :: sources =>
    (s.watch steps source).1 ++
      match s.execute steps source with
      | some (_, t) => t.moments steps sources
      | none => []

def withCallScope (rule : CallScope) (s : Session) : Session :=
  { s with config := { s.config with callScope := rule } }

variable {s t : Session} {steps : Nat} {source : String} {sources : List String} {x : Execution}

theorem execute_of_unnested (hs : s.AtRest) (hc : s.config.callScope = .copyCaller)
    (h : ∀ m ∈ (s.watch steps source).1, m.Unnested) :
    (s.withCallScope .parametersOnly).execute steps source =
      (s.execute steps source).map (Prod.map id (withCallScope .parametersOnly)) := by
  have hcomments : (s.withCallScope .parametersOnly).config.comments = s.config.comments := rfl
  cases ht : Lexer.tokenize s.config.comments source with
  | error f =>
    simp only [execute, hcomments, ht]
    rfl
  | ok tokens =>
    have ho : s.config.options = ⟨.copyCaller, s.config.roundLimit⟩ := by rw [Config.options, hc]
    simp only [watch, ht, ho] at h
    have hrun := ofProgram_of_unnested hs.scopes h
    rw [execute_of_tokenize ht, execute_of_tokenize (hcomments ▸ ht), ho, ← hrun, Option.map_map]
    rfl

/-- By induction on the source texts: up to the one that is next, the two sessions differ in the
rule alone, and none of them leaves a scope behind. -/
theorem executeAll_of_unnested (hs : s.AtRest) (hc : s.config.callScope = .copyCaller)
    (h : ∀ m ∈ s.moments steps sources, m.Unnested) :
    (s.withCallScope .parametersOnly).executeAll steps sources =
      (s.executeAll steps sources).map (Prod.map id (withCallScope .parametersOnly)) := by
  induction sources generalizing s with
  | nil => rfl
  | cons source sources ih =>
    obtain ⟨hfirst, hlater⟩ := List.forall_mem_append.mp h
    simp only [executeAll, execute_of_unnested hs hc hfirst]
    cases hx : s.execute steps source with
    | none => rfl
    | some p =>
      obtain ⟨x, t⟩ := p
      have hct : t.config.callScope = .copyCaller := config_of_execute hx ▸ hc
      have hrest := ih (hs.execute hx) hct (by simpa [hx] using hlater)
      simp only [Option.map_some, Prod.map_apply, id, Option.bind_eq_bind, Option.bind_some, hrest]
      cases t.executeAll steps sources <;> rfl

/-- In two new sessions that differ in the rule for the scopes of calls: if in the one that copies
the scope of the caller no function is called from within a call, then the same source texts lead to
the same outcomes and the same lines in both, and to the same variables and functions in the end. -/
theorem executeAll_under_both_rules (config : Config) (steps : Nat) (sources : List String)
    (h : ∀ m ∈ (start { config with callScope := .copyCaller }).moments steps sources,
      m.Unnested) :
    (start { config with callScope := .parametersOnly }).executeAll steps sources =
      ((start { config with callScope := .copyCaller }).executeAll steps sources).map
        (Prod.map id (withCallScope .parametersOnly)) :=
  executeAll_of_unnested (atRest_start _) rfl h

/-- Calls on the results of calls, and one that fails. -/
def sideBySide : List String :=
  ["(defun add (a b) (setq sum (+ a b)) (print sum) sum)",
    "(setq x (add (add 1 2) (add 3 4))) (add x (missing))", "(add x sum)", "(print sum)"]

theorem executeAll_sideBySide :
    ∃ xs t, (start {}).executeAll 20 sideBySide = some (xs, t) ∧
      (start { callScope := .parametersOnly }).executeAll 20 sideBySide =
        some (xs, t.withCallScope .parametersOnly) ∧
      xs.map (·.output) = [#[], #["3", "7", "10"], #[], #["sum"]] := by
  have hlines : ((start {}).executeAll 20 sideBySide).map (fun p => p.1.map (·.output)) =
      some [#[], #["3", "7", "10"], #[], #["sum"]] := by
    decide +kernel
  have hunnested : ∀ m ∈ (start {}).moments 20 sideBySide, m.Unnested := by decide +kernel
  obtain ⟨⟨xs, t⟩, hrun, hout⟩ := Option.map_eq_some_iff.mp hlines
  have hrule := executeAll_under_both_rules {} 20 sideBySide hunnested
  refine ⟨xs, t, hrun, ?_, hout⟩
  exact hrule.trans (congrArg (Option.map _) hrun)

end FlatLisp.Session
