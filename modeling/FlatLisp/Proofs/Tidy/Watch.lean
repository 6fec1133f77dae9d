import FlatLisp.Proofs.Call
import FlatLisp.Proofs.Contract.Form
import FlatLisp.Proofs.Tidy
import FlatLisp.Proofs.Watch

/-! Evaluations that keep things tidy. From a tidy state, all that is evaluated, assigned, defined
and printed is tidy, and so is every state that comes up, and the error if there is one. -/
namespace FlatLisp
open Machine Eval Nesting Evaluation Watched

variable {α γ : Type} {o : Options} {s t : State (List Token)}

def Event.Tidy : Event (List Token) → Prop
  | .form tokens => IsForm tokens ∧ ∀ t ∈ tokens, t.WellSpelled
  | .lookup name => IsSymbol name
  | .assign _ v => v.Solid ∧ v.Typed
  | .define f => f.WellFormed
  | .print line => (Value.text line).Solid
  | _ => True

structure Moment.Tidy (m : Moment (List Token)) : Prop where
  event : m.event.Tidy
  state : m.state.Tidy

/-- The end of a run in which things were kept tidy. -/
structure TidyEnd (P : α → Prop) (r : Except Error α) (t : State (List Token)) : Prop where
  state : t.Tidy
  ok : ∀ a, r = .ok a → P a
  error : ∀ e, r = .error e → e.Tidy

/-- From tidy states, all moments are tidy and so is the end. -/
def Tidies (P : α → Prop) (x : Watched (List Token) α) : Prop :=
  ∀ o calls s, s.Tidy → (∀ m ∈ (x o calls s).1, m.Tidy) ∧
    ∀ r t, (x o calls s).2 = some (r, t) → TidyEnd P r t

theorem tidyEnd_ok {P : α → Prop} {a : α} (ht : t.Tidy) (ha : P a) : TidyEnd P (.ok a) t where
  state := ht
  ok _ h := Except.ok.inj h ▸ ha
  error := nofun

theorem tidyEnd_error {P : α → Prop} {e : Error} (ht : t.Tidy) (he : e.Tidy) :
    TidyEnd P (.error e) t where
  state := ht
  ok := nofun
  error _ h := Except.error.inj h ▸ he

theorem Error.Tidy.bare {f : Fault} (h : f.QuotesOnly Unbroken) : (Error.bare f).Tidy := by
  refine ⟨h, ?_⟩
  rintro _ ⟨⟩

theorem tidyEnd_of_guardRound {n : Nat} {r : Except Error Unit} (hs : s.Tidy)
    (h : guardRound n o s = some (r, t)) : TidyEnd (fun _ => True) r t := by
  simp only [guardRound] at h
  split at h
  · split at h
    · cases h
      exact tidyEnd_error hs (.bare trivial)
    · cases h
      exact tidyEnd_ok hs trivial
  · cases h
    exact tidyEnd_ok hs trivial

namespace Tidies
variable {P : α → Prop} {Q : γ → Prop} {x : Watched (List Token) α}

theorem pure {a : α} (h : P a) : Tidies P (Pure.pure a : Watched (List Token) α) := by
  intro o calls s hs
  refine ⟨by simp [Pure.pure], ?_⟩
  rintro _ _ ⟨⟩
  exact tidyEnd_ok hs h

theorem bind {f : α → Watched (List Token) γ} (hx : Tidies P x)
    (hf : ∀ a, P a → Tidies Q (f a)) : Tidies Q (x >>= f) := by
  intro o calls s hs
  obtain ⟨hseen, hend⟩ := hx o calls s hs
  simp only [Bind.bind]
  rcases hr : x o calls s with ⟨seen, _ | ⟨e | a, t⟩⟩ <;> rw [hr] at hseen hend
  · exact ⟨hseen, by simp⟩
  · refine ⟨hseen, ?_⟩
    rintro _ _ ⟨⟩
    have h := hend _ t rfl
    exact tidyEnd_error h.state (h.error e rfl)
  · have h := hend _ t rfl
    obtain ⟨hlater, hlast⟩ := hf a (h.ok a rfl) o calls t h.state
    exact ⟨List.forall_mem_append.mpr ⟨hseen, hlater⟩, hlast⟩

theorem noting {event : Event (List Token)} {y : Evaluation (List Token) α} (he : event.Tidy)
    (h : ∀ o s, s.Tidy → ∀ r t, y o s = some (r, t) → TidyEnd P r t) :
    Tidies P (Watched.noting event y) := by
  intro o calls s hs
  exact ⟨List.forall_mem_singleton.mpr ⟨he, hs⟩, h o s hs⟩

/-- A form is named in an error as it is spelled. -/
theorem inForm {form : List Token} (hform : IsForm form) (hspelled : ∀ t ∈ form, t.WellSpelled)
    (hx : Tidies P x) : Tidies P (Machine.inForm form x) := by
  intro o calls s hs
  obtain ⟨hseen, hend⟩ := hx o calls s hs
  refine ⟨List.forall_mem_cons.mpr ⟨⟨⟨hform, hspelled⟩, hs⟩, hseen⟩, ?_⟩
  intro r t hr
  obtain ⟨⟨q, u⟩, hq, hr⟩ := Option.map_eq_some_iff.mp ((located_eq_map form _ o s).symm.trans hr)
  obtain ⟨rfl, rfl⟩ : q.mapError (·.locate form) = r ∧ u = t := by simpa using hr
  have h := hend q u hq
  cases q with
  | ok a => exact h
  | error e =>
    have hunbroken : ∀ t ∈ form, Unbroken t.text := fun t ht => (hspelled t ht).unbroken
    exact tidyEnd_error h.state ((h.error e rfl).locate hunbroken)

theorem duringCall (f : UserFunction (List Token)) (hx : Tidies P x)
    {calls : List (UserFunction (List Token))} (hs : s.Tidy) :
    ∀ m ∈ Watched.duringCall f x o calls s, m.Tidy := by
  simp only [Watched.duringCall]
  cases he : s.env.enter with
  | error g => simp
  | ok e =>
    have hin : State.Tidy { s with env := e.pushCall o.callScope } :=
      ⟨(hs.env.enter he).pushCall _, hs.printed⟩
    obtain ⟨hseen, hend⟩ := hx o (f :: calls) _ hin
    simp only
    generalize x o (f :: calls) _ = p at hseen hend
    rcases p with ⟨seen, _ | ⟨r, t⟩⟩
    · exact hseen
    · have ht : t.Tidy := (hend r t rfl).state
      have hleave : Moment.Tidy ⟨.leave f, f :: calls, t⟩ := ⟨trivial, ht⟩
      exact List.forall_mem_append.mpr ⟨hseen, List.forall_mem_singleton.mpr hleave⟩

theorem inCall (f : UserFunction (List Token)) (hx : Tidies P x) :
    Tidies P (Machine.inCall f x) := by
  intro o calls s hs
  refine ⟨List.forall_mem_cons.mpr ⟨⟨trivial, hs⟩, hx.duringCall f hs⟩, ?_⟩
  intro r t hr
  obtain ⟨g, hg, rfl, rfl⟩ | ⟨e, u, he, hu, rfl⟩ := called_eq_some hr
  · obtain ⟨-, rfl⟩ := Environment.enter_eq_error_iff.mp hg
    exact tidyEnd_error hs (.bare trivial)
  · have hin : State.Tidy { s with env := e.pushCall o.callScope } :=
      ⟨(hs.env.enter he).pushCall _, hs.printed⟩
    have h := (hx o (f :: calls) _ hin).2 r u hu
    exact { h with state := ⟨h.state.env.leave, h.state.printed⟩ }

end Tidies

def tidying : Contract .spelled (Watched (List Token)) where
  Stored := UserFunction.WellFormed
  Holds _ P x := Tidies P x
  stored_name h := fun c hc => (h.name.chars c hc).1
  stored_parameter h := h.parameter
  stored_body h := h.body_spelled
  defined := wellFormed_of_defines
  pure := .pure
  bind hx hf := hx.bind hf
  exhausted := by
    intro α _ P o calls s hs
    exact ⟨by simp [exhausted], by simp [exhausted]⟩
  fail hf := .noting trivial <| by
    rintro o s hs _ _ ⟨⟩
    exact tidyEnd_error hs (.bare hf)
  inForm hform hpart hx := hx.inForm hform hpart.word
  inCall _ hx := hx.inCall _
  lookup hn := .noting hn <| by
    rintro o s hs _ _ ⟨⟩
    exact tidyEnd_ok hs fun v hv => (hs.env.lookup hv).1
  assign _ hv := .noting ⟨hv.normalized, Value.typed_normalized _⟩ <| by
    rintro o s hs _ _ ⟨⟩
    exact tidyEnd_ok ⟨hs.env.assign _ hv.normalized (Value.typed_normalized _), hs.printed⟩ trivial
  function? _ := .noting trivial <| by
    rintro o s hs _ _ ⟨⟩
    exact tidyEnd_ok hs fun g hg => (hs.env.function _ g hg).2
  define hf := .noting hf <| by
    rintro o s hs _ _ ⟨⟩
    exact tidyEnd_ok ⟨hs.env.define hf, hs.printed⟩ trivial
  print hv := .noting hv.display <| by
    rintro o s hs _ _ ⟨⟩
    refine tidyEnd_ok ⟨hs.env, fun line hline => ?_⟩ trivial
    obtain hline | rfl := Array.mem_push.mp hline
    · exact hs.printed line hline
    · exact hv.display.unbroken
  startRound n := .noting trivial fun o s hs r t hr => tidyEnd_of_guardRound hs hr

end FlatLisp
