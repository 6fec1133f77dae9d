import FlatLisp.Proofs.Call
import FlatLisp.Proofs.Contract.Form
import FlatLisp.Proofs.Trace

/-! What a trace tells of the end of its run. Where the run ends well, no form in the trace raised
an error. Where it fails, the error was raised outside of all forms, or by a form within which none
had raised one, and which is then its context. -/
namespace FlatLisp
open Machine Eval Nesting Evaluation

variable {α γ : Type} {e : Error} {source : List Token} {o : Options} {s t : State (List Token)}
  {visits later : List (Visit (List Token))}

/-- Every name, every value and every token. -/
def Lexicon.full : Lexicon where
  toVocabulary := .full
  Word _ := True
  Quotable _ := True
  name _ _ := trivial
  quotable _ := trivial
  display _ := trivial
  builtin _ := trivial

namespace Visit

/-- None of the forms that were evaluated raised an error. -/
def Quiet (visits : List (Visit (List Token))) : Prop :=
  ∀ x inner raised, (form x inner raised).Within visits → raised = none

/-- The tokens stand in the source or in the body of a function that was called. -/
def StandsIn (source : List Token) (visits : List (Visit (List Token))) (x : List Token) : Prop :=
  x <:+: source ∨ ∃ f inner, (call f inner).Within visits ∧ x <:+: f.body

/-- The error has the fault of one that a form raised by itself, since none of the forms that were
evaluated within it had raised any, and its context is that form. -/
inductive Blames (visits : List (Visit (List Token))) : Error → Prop
  | form {x : List Token} {inner : List (Visit (List Token))} {f : Fault} :
      (form x inner (some (.bare f))).Within visits → Quiet inner →
        Blames visits ⟨f, [Error.excerpt (Token.render x)]⟩

theorem Quiet.append (h : Quiet visits) (h' : Quiet later) : Quiet (visits ++ later) := by
  intro x inner raised hw
  exact (within_append.mp hw).elim (h x inner raised) (h' x inner raised)

theorem quiet_nil : Quiet [] := by
  intro x inner raised hw
  exact (not_within_nil hw).elim

theorem StandsIn.mono {x : List Token} (h : StandsIn source visits x)
    (hw : ∀ v : Visit (List Token), v.Within visits → v.Within later) :
    StandsIn source later x := by
  obtain hx | ⟨f, inner, hf, hx⟩ := h
  · exact .inl hx
  · exact .inr ⟨f, inner, hw _ hf, hx⟩

theorem Blames.mono (h : Blames visits e)
    (hw : ∀ v : Visit (List Token), v.Within visits → v.Within later) : Blames later e := by
  obtain ⟨hform, hquiet⟩ := h
  exact .form (hw _ hform) hquiet

theorem Blames.locate (h : Blames visits e) (x : List Token) : e.locate x = e := by
  obtain ⟨-, -⟩ := h
  rfl

end Visit

open Visit

/-- What is right about a trace and the end of the run that left it. -/
structure Explained (source : List Token) (P : α → Prop) (visits : List (Visit (List Token)))
    (last : Option (Except Error α × State (List Token))) : Prop where
  forms : ∀ x inner raised, (Visit.form x inner raised).Within visits →
    IsForm x ∧ StandsIn source visits x
  ok : ∀ a t, last = some (.ok a, t) → P a ∧ Quiet visits
  error : ∀ e t, last = some (.error e, t) →
    e.context = [] ∧ Quiet visits ∨ Blames visits e

namespace Explained
variable {P : α → Prop} {Q : γ → Prop} {a : α}
  {last : Option (Except Error α × State (List Token))}
  {next : Option (Except Error γ × State (List Token))}

/-- A run without a trace may fail, since an error that no form raised has no context. -/
theorem silent (hok : ∀ a t, last = some (.ok a, t) → P a)
    (herror : ∀ e t, last = some (.error e, t) → e.context = []) :
    Explained source P [] last where
  forms _ _ _ h := (not_within_nil h).elim
  ok a t h := ⟨hok a t h, quiet_nil⟩
  error e t h := .inl ⟨herror e t h, quiet_nil⟩

theorem exhausted (h : Explained source P visits none) :
    Explained source Q visits (none : Option (Except Error γ × State (List Token))) where
  forms := h.forms
  ok := nofun
  error := nofun

theorem failed (h : Explained source P visits (some (.error e, t))) :
    Explained source Q visits (some (.error e, t)) where
  forms := h.forms
  ok := nofun
  error := by
    rintro _ _ ⟨⟩
    exact h.error e t rfl

theorem append (h : Explained source P visits (some (.ok a, t)))
    (h' : Explained source Q later next) : Explained source Q (visits ++ later) next where
  forms := by
    intro x inner raised hw
    obtain hw | hw := within_append.mp hw
    · obtain ⟨hform, hx⟩ := h.forms x inner raised hw
      exact ⟨hform, hx.mono fun v hv => within_append.mpr (.inl hv)⟩
    · obtain ⟨hform, hx⟩ := h'.forms x inner raised hw
      exact ⟨hform, hx.mono fun v hv => within_append.mpr (.inr hv)⟩
  ok b u hb := ⟨(h'.ok b u hb).1, (h.ok a t rfl).2.append (h'.ok b u hb).2⟩
  error := by
    intro e u he
    obtain ⟨hbare, hquiet⟩ | hblames := h'.error e u he
    · exact .inl ⟨hbare, (h.ok a t rfl).2.append hquiet⟩
    · exact .inr (hblames.mono fun v hv => within_append.mpr (.inr hv))

/-- An error that no form has been named for is raised by this form, and any other one comes from a
form within it. -/
theorem located {form : List Token} {x : Traced (List Token) α} (hform : IsForm form)
    (hstands : form <:+: source) (h : Explained source P (x o s).1 (x o s).2) :
    Explained source P [.form form (x o s).1 (raisedBy? (x o s).2)]
      (Evaluation.located form x.untraced o s) := by
  rw [located_eq_map]
  simp only [Traced.untraced]
  generalize (x o s).1 = visits at h ⊢
  have hlift : ∀ raised (v : Visit (List Token)), v.Within visits →
      v.Within [.form form visits raised] := fun _ _ hv => within_form.mpr (.inr hv)
  refine { forms := ?_, ok := ?_, error := ?_ }
  · intro y inner raised hw
    obtain ⟨⟨⟩⟩ | hw := within_form.mp hw
    · exact ⟨hform, .inl hstands⟩
    · obtain ⟨hy, hstands⟩ := h.forms y inner raised hw
      exact ⟨hy, hstands.mono (hlift _)⟩
  · intro a u hu
    obtain ⟨⟨r, v⟩, hr, hv⟩ := Option.map_eq_some_iff.mp hu
    cases r with
    | error e => cases hv
    | ok b =>
      obtain ⟨rfl, rfl⟩ : b = a ∧ v = u := by simpa [Except.mapError] using hv
      rw [hr] at h ⊢
      obtain ⟨hP, hquiet⟩ := h.ok b v rfl
      refine ⟨hP, fun y inner raised hw => ?_⟩
      obtain ⟨⟨⟩⟩ | hw := within_form.mp hw
      · rfl
      · exact hquiet y inner raised hw
  · intro e u hu
    obtain ⟨⟨r, v⟩, hr, hv⟩ := Option.map_eq_some_iff.mp hu
    cases r with
    | ok b => cases hv
    | error g =>
      obtain ⟨rfl, rfl⟩ : g.locate form = e ∧ v = u := by simpa [Except.mapError] using hv
      rw [hr] at h ⊢
      right
      obtain ⟨hbare, hquiet⟩ | hblames := h.error g v rfl
      · obtain ⟨f, context⟩ := g
        obtain rfl : context = [] := hbare
        exact .form (within_form.mpr (.inl rfl)) hquiet
      · rw [hblames.locate]
        exact hblames.mono (hlift _)

/-- Forms in a body that is evaluated for a call stand in the body of a function that was called. -/
theorem called {f : UserFunction (List Token)} {x : Traced (List Token) α}
    (h : ∀ s, Explained f.body P (x o s).1 (x o s).2) :
    Explained source P (Traced.visitsOfCall f x o s) (Evaluation.called x.untraced o s) := by
  simp only [Traced.visitsOfCall, Evaluation.called]
  cases s.env.enter with
  | error g =>
    refine .silent (by simp) ?_
    rintro _ _ ⟨⟩
    rfl
  | ok env =>
    have hbody := h { s with env := env.pushCall o.callScope }
    simp only [Traced.untraced]
    generalize x o { s with env := env.pushCall o.callScope } = p at hbody ⊢
    obtain ⟨visits, last⟩ := p
    have hlift : ∀ v : Visit (List Token), v.Within visits → v.Within [.call f visits] :=
      fun _ hv => within_call.mpr (.inr hv)
    have hquiet : Quiet visits → Quiet [.call f visits] := by
      intro hquiet y inner raised hw
      obtain ⟨⟨⟩⟩ | hw := within_call.mp hw
      exact hquiet y inner raised hw
    have hforms : ∀ y inner raised, (Visit.form y inner raised).Within [.call f visits] →
        IsForm y ∧ StandsIn source [.call f visits] y := by
      intro y inner raised hw
      obtain ⟨⟨⟩⟩ | hw := within_call.mp hw
      obtain ⟨hy, hin | ⟨g, during, hg, hin⟩⟩ := hbody.forms y inner raised hw
      · exact ⟨hy, .inr ⟨f, visits, within_call.mpr (.inl rfl), hin⟩⟩
      · exact ⟨hy, .inr ⟨g, during, hlift _ hg, hin⟩⟩
    rcases last with _ | ⟨e | a, u⟩
    all_goals refine { forms := hforms, ok := ?_, error := ?_ } <;> rintro _ _ ⟨⟩
    · exact (hbody.error e u rfl).imp (.imp id hquiet) (·.mono hlift)
    · exact (hbody.ok a u rfl).imp id hquiet

end Explained

/-- Wherever it starts, the run is explained by its trace. -/
def Explains (source : List Token) (P : α → Prop) (x : Traced (List Token) α) : Prop :=
  ∀ o s, Explained source P (x o s).1 (x o s).2

theorem Explains.silently {P : α → Prop} {x : Evaluation (List Token) α}
    (h : ∀ o s r t, x o s = some (r, t) →
      (∀ a, r = .ok a → P a) ∧ ∀ e, r = .error e → e.context = []) :
    Explains source P (Traced.silently x) := by
  intro o s
  refine .silent ?_ ?_
  · intro a t hr
    exact (h o s _ t hr).1 a rfl
  · intro e t hr
    exact (h o s _ t hr).2 e rfl

/-- An effect that does not fail. -/
theorem Explains.effect {P : α → Prop} {x : Evaluation (List Token) α}
    (h : ∀ o s, ∃ a t, x o s = some (.ok a, t) ∧ P a) : Explains source P (Traced.silently x) := by
  refine .silently fun o s r t hr => ?_
  obtain ⟨a, u, ha, hP⟩ := h o s
  obtain ⟨rfl, rfl⟩ : Except.ok a = r ∧ u = t := by simpa using ha.symm.trans hr
  refine ⟨?_, nofun⟩
  rintro _ ⟨⟩
  exact hP

theorem Explains.bind {P : α → Prop} {Q : γ → Prop} {x : Traced (List Token) α}
    {f : α → Traced (List Token) γ} (hx : Explains source P x)
    (hf : ∀ a, P a → Explains source Q (f a)) : Explains source Q (x >>= f) := by
  intro o s
  have h := hx o s
  simp only [Bind.bind]
  rcases hr : x o s with ⟨visits, _ | ⟨e | a, t⟩⟩ <;> rw [hr] at h
  · exact h.exhausted
  · exact h.failed
  · exact h.append (hf a (h.ok a t rfl).1 o t)

def explaining : Contract .full (Traced (List Token)) where
  Stored _ := True
  Holds source P x := Explains source P x
  stored_name _ := trivial
  stored_parameter _ _ _ := trivial
  stored_body _ _ _ := trivial
  defined _ _ := trivial
  pure h := .effect fun _ s => ⟨_, s, rfl, h⟩
  bind hx hf := hx.bind hf
  exhausted := .silently <| by
    rintro o s _ _ ⟨⟩
  fail _ := .silently <| by
    rintro o s _ _ ⟨⟩
    refine ⟨nofun, ?_⟩
    rintro _ ⟨⟩
    rfl
  inForm hform hpart h o s := (h o s).located hform hpart.isInfix
  inCall _ h o s := .called (h o)
  lookup _ := .effect fun _ s => ⟨_, s, rfl, fun _ _ => trivial⟩
  assign _ _ := .effect fun _ _ => ⟨_, _, rfl, trivial⟩
  function? _ := .effect fun _ s => ⟨_, s, rfl, fun _ _ => trivial⟩
  define _ := .effect fun _ _ => ⟨_, _, rfl, trivial⟩
  print _ := .effect fun _ _ => ⟨_, _, rfl, trivial⟩
  startRound n := .silently <| by
    intro o s r t hr
    refine ⟨fun _ _ => trivial, ?_⟩
    rintro e rfl
    simp only [guardRound] at hr
    repeat' split at hr
    all_goals cases hr
    rfl

end FlatLisp
