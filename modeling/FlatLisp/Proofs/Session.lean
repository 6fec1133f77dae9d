import FlatLisp.Proofs.Balance
import FlatLisp.Proofs.Frame
import FlatLisp.Proofs.Tree.Correspondence
import FlatLisp.Session

/-! The sessions that there are, and what holds in all of them between two executions. -/
namespace FlatLisp.Session
open Evaluation

variable {s t : Session} {steps : Nat} {source : String} {x : Execution}

/-- A session starts with some configuration and goes on with executions and resets. -/
inductive Reachable : Session → Prop
  | start (config : Config) : Reachable (start config)
  | execute {s t : Session} {steps : Nat} {source : String} {x : Execution} :
      Reachable s → s.execute steps source = some (x, t) → Reachable t
  | run {s t : Session} {steps : Nat} {source : String} {lines : List String} :
      Reachable s → s.run steps source = some (lines, t) → Reachable t
  | reset {s : Session} : Reachable s → Reachable s.reset

theorem execute_eq_some (h : s.execute steps source = some (x, t)) :
    (∃ f, Lexer.tokenize s.config.comments source = .error f ∧
      x = ⟨#[], .error (.bare f)⟩ ∧ t = s) ∨
    ∃ tokens u, Lexer.tokenize s.config.comments source = .ok tokens ∧
      ofProgram tokens steps s.config.options { env := s.env } = some (x.outcome, u) ∧
      x.output = u.output ∧ t = { s with env := u.env } := by
  simp only [execute] at h
  split at h
  · rename_i f hf
    obtain ⟨rfl, rfl⟩ : _ = x ∧ s = t := by simpa using h
    exact .inl ⟨f, hf, rfl, rfl⟩
  · rename_i tokens ht
    split at h
    · rename_i outcome u hu
      obtain ⟨rfl, rfl⟩ : _ = x ∧ _ = t := by simpa using h
      exact .inr ⟨tokens, u, ht, hu, rfl, rfl⟩
    · cases h

theorem execute_of_tokenize {tokens : List Token}
    (h : Lexer.tokenize s.config.comments source = .ok tokens) (steps : Nat) :
    s.execute steps source =
      (ofProgram tokens steps s.config.options { env := s.env }).map fun (r, t) =>
        (⟨t.output, r⟩, { s with env := t.env }) := by
  simp only [execute, h, ofProgram]
  rcases (evaluateProgram steps tokens : Evaluation _ _) s.config.options { env := s.env } with
    _ | ⟨_, _⟩ <;> rfl

theorem exists_execute_of_endsIn {tokens : List Token} {r : Except Error Value}
    {u : State (List Token)} (ht : Lexer.tokenize s.config.comments source = .ok tokens)
    (h : EndsIn (ofProgram tokens) s.config.options { env := s.env } (r, u)) :
    ∃ n, ∀ steps, n ≤ steps →
      s.execute steps source = some (⟨u.output, r⟩, { s with env := u.env }) := by
  obtain ⟨n, hn⟩ := h
  refine ⟨n, fun steps hle => ?_⟩
  rw [execute_of_tokenize ht, hn steps hle]
  rfl

theorem config_of_execute (h : s.execute steps source = some (x, t)) : t.config = s.config := by
  obtain ⟨f, -, -, rfl⟩ | ⟨tokens, u, -, -, -, rfl⟩ := execute_eq_some h
  · rfl
  · rfl

/-- No call is active, and every function that is stored has a balanced body. -/
structure AtRest (s : Session) : Prop where
  scopes : s.env.scopes = []
  depth : s.env.depth = 0
  recursionLimit : s.env.recursionLimit = s.config.recursionLimit
  bodies : s.env.BalancedBodies

theorem atRest_start (config : Config) : (start config).AtRest where
  scopes := rfl
  depth := rfl
  recursionLimit := rfl
  bodies := by
    intro name f hf
    simp [start, Config.environment, Environment.function?] at hf

theorem AtRest.execute (h : s.AtRest) (hx : s.execute steps source = some (x, t)) :
    t.AtRest := by
  obtain ⟨f, -, -, rfl⟩ | ⟨tokens, u, ht, hu, -, rfl⟩ := execute_eq_some hx
  · exact h
  · obtain ⟨hframed, -⟩ := framing_uniform.rel_evaluateProgram steps
      (fun x (_ : x <:+: tokens) => trivial) _ _ _ u hu
    obtain ⟨forest, hforest⟩ := Option.isSome_iff_exists.mp
      (Tree.isSome_parse?_iff.mpr (Lexer.balanced_of_tokenize ht))
    exact {
      scopes := hframed.scopes_eq_nil h.scopes
      depth := hframed.depth.trans h.depth
      recursionLimit := hframed.recursionLimit.trans h.recursionLimit
      bodies := (ofForest_parsed hforest h.bodies _ steps).2 _ hu }

theorem Reachable.atRest (h : s.Reachable) : s.AtRest := by
  induction h with
  | start config => exact atRest_start config
  | execute _ hx ih => exact ih.execute hx
  | run _ hr ih =>
    obtain ⟨⟨x, t⟩, hx, ht⟩ := Option.map_eq_some_iff.mp hr
    obtain rfl := congrArg Prod.snd ht
    exact ih.execute hx
  | reset _ _ => exact atRest_start _

end FlatLisp.Session
