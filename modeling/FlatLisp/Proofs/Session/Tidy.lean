import FlatLisp.Proofs.Accounting
import FlatLisp.Proofs.Tidy.Watch

/-! Sessions keep their environment tidy. Every token that is evaluated in one comes from a text, so
whatever is executed, variables hold what they should and functions are such as can be called. -/
namespace FlatLisp
open Lexer Nesting Evaluation

theorem Lexer.quotesOnly_of_tokenize {Q : String → Prop} {comments : Bool} {source : String}
    {f : Fault} (h : tokenize comments source = .error f) : f.QuotesOnly Q := by
  simp only [tokenize] at h
  split at h
  · rename_i cause hc
    obtain rfl := Except.error.inj h
    obtain ⟨_, rfl⟩ | ⟨_, rfl⟩ := cause_of_imbalanceFrom hc
    · exact trivial
    · exact trivial
  · cases h

/-- What an execution leads to can be shown line by line. -/
structure Execution.Tidy (x : Execution) : Prop where
  printed : ∀ line ∈ x.output, Unbroken line
  value : ∀ v, x.outcome = .ok v → v.Solid
  error : ∀ e, x.outcome = .error e → e.Tidy

namespace Session
variable {s t : Session} {steps : Nat} {source : String} {x : Execution}

/-- A tidy environment is tidy throughout an execution and after it. -/
theorem tidy_of_watch (hs : s.env.Tidy) (steps : Nat) (source : String) :
    (∀ m ∈ (s.watch steps source).1, m.Tidy) ∧
    ∀ x t, (s.watch steps source).2 = some (x, t) → t.env.Tidy ∧ x.Tidy := by
  simp only [watch]
  cases ht : tokenize s.config.comments source with
  | error f =>
    refine ⟨by simp, ?_⟩
    rintro _ _ ⟨⟩
    refine ⟨hs, by simp, by simp, ?_⟩
    rintro _ ⟨⟩
    exact .bare (quotesOnly_of_tokenize ht)
  | ok tokens =>
    have hfirst : State.Tidy { env := s.env } := ⟨hs, by simp⟩
    obtain ⟨hseen, hend⟩ := tidying.holds_evaluateProgram steps (wellSpelled_of_tokenize ht)
      s.config.options [] _ hfirst
    refine ⟨hseen, ?_⟩
    intro x t hx
    obtain ⟨⟨r, u⟩, hr, he⟩ := Option.map_eq_some_iff.mp hx
    obtain ⟨rfl, rfl⟩ : _ = x ∧ _ = t := by simpa using he
    have h := hend r u hr
    exact ⟨h.state.env, h.state.printed, h.ok, h.error⟩

theorem tidy_start (config : Config) : (start config).env.Tidy where
  globals := .of_bindings_empty
  scope := nofun
  function := by
    intro name f hf
    simp [start, Config.environment, Environment.function?] at hf

theorem Reachable.tidy (hs : s.Reachable) : s.env.Tidy := by
  have hstep : ∀ {s t : Session} {steps source x}, s.env.Tidy →
      s.execute steps source = some (x, t) → t.env.Tidy := by
    intro s t steps source x hs hx
    exact ((tidy_of_watch hs steps source).2 x t ((s.snd_watch steps source).trans hx)).1
  induction hs with
  | start config => exact tidy_start config
  | execute _ hx ih => exact hstep ih hx
  | run _ hr ih =>
    obtain ⟨⟨x, t⟩, hx, ht⟩ := Option.map_eq_some_iff.mp hr
    obtain rfl := congrArg Prod.snd ht
    exact hstep ih hx
  | reset _ _ => exact tidy_start _

end Session

/-- The types of what is stored: a variable is an integer or a text that reads as none, wherever it
is bound, and a function is stored under its own name and can be called. -/
structure Environment.Typed (env : Environment (List Token)) : Prop where
  globals : ∀ name v, env.globals.get? name = some v → v.Typed
  scope : ∀ a ∈ env.scopes, ∀ name v, a.get? name = some v → v.Typed
  integer : ∀ name n, env.getInteger? name = some n ↔ env.lookup name = some (.integer n)
  function : ∀ name f, env.function? name = some f → f.name = name ∧ f.WellFormed

theorem Environment.Tidy.typed {env : Environment (List Token)} (h : env.Tidy) : env.Typed where
  globals name v hv := (h.globals name v hv).2
  scope a ha name v hv := (h.scope a ha name v hv).2
  integer _ _ := h.getInteger?_eq_some_iff
  function := h.function

namespace Session

/-- In every session, what is stored has its types between executions, at every moment of every
execution, however many steps it is given, and where it ends. -/
theorem typed_throughout {s : Session} (hs : s.Reachable) :
    s.env.Typed ∧ ∀ steps source, (s.watch steps source).2 = s.execute steps source ∧
      (∀ m ∈ (s.watch steps source).1, m.state.env.Typed) ∧
      ∀ x t, s.execute steps source = some (x, t) → t.env.Typed := by
  refine ⟨hs.tidy.typed, fun steps source => ?_⟩
  obtain ⟨hseen, hend⟩ := tidy_of_watch hs.tidy steps source
  refine ⟨s.snd_watch steps source, fun m hm => (hseen m hm).state.env.typed, ?_⟩
  intro x t hx
  exact (hend x t ((s.snd_watch steps source).trans hx)).1.typed

/-- A text that reads as an integer is assigned, passed to a function, and assigned there. -/
def signed : String := "(setq x +5) (defun keep (n) (setq y n)) (keep x) (keep kept)"

theorem typed_signed :
    (∃ m ∈ ((start {}).watch 20 signed).1,
      m.state.env.getInteger? "y" = some 5 ∧ m.state.env.lookup "y" = some (.integer 5)) ∧
    ∃ x t f, (start {}).execute 20 signed = some (x, t) ∧
      t.env.lookup "x" = some (.integer 5) ∧ t.env.function? "keep" = some f ∧ f.WellFormed := by
  have hmoment : (((start {}).watch 20 signed).1.any fun m =>
      m.state.env.getInteger? "y" = some 5) = true := by
    decide +kernel
  have hend : (((start {}).execute 20 signed).map fun p =>
      (p.2.env.getInteger? "x", (p.2.env.function? "keep").isSome)) = some (some 5, true) := by
    decide +kernel
  obtain ⟨-, hexecution⟩ := typed_throughout (.start {})
  obtain ⟨-, hseen, hlast⟩ := hexecution 20 signed
  refine ⟨?_, ?_⟩
  · obtain ⟨m, hm, hy⟩ := List.any_eq_true.mp hmoment
    have hinteger : m.state.env.getInteger? "y" = some 5 := by simpa using hy
    exact ⟨m, hm, hinteger, ((hseen m hm).integer "y" 5).mp hinteger⟩
  · obtain ⟨⟨x, t⟩, hx, ht⟩ := Option.map_eq_some_iff.mp hend
    obtain ⟨hinteger, hfunction⟩ : t.env.getInteger? "x" = some 5 ∧
        (t.env.function? "keep").isSome := Prod.mk.inj ht
    obtain ⟨f, hf⟩ := Option.isSome_iff_exists.mp hfunction
    have htyped := hlast x t hx
    exact ⟨x, t, f, hx, (htyped.integer "x" 5).mp hinteger, hf, (htyped.function _ f hf).2⟩

end Session
end FlatLisp
