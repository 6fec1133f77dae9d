import FlatLisp.Evaluation
import FlatLisp.Proofs.Coupling

/-! Two runs side by side: the second one goes the way of the first, in states that correspond to
each other, unless the first one ends in a way that lets the second one go. -/
namespace FlatLisp

theorem Error.fault_locate (form : List Token) (e : Error) : (e.locate form).fault = e.fault := by
  unfold Error.locate
  split <;> rfl

theorem Error.context_locate_ne_nil (e : Error) (form : List Token) :
    (e.locate form).context ≠ [] := by
  simp only [locate, within]
  split
  · simp
  · rename_i h
    simpa using h

variable {β₁ β₂ α₁ α₂ γ₁ γ₂ : Type}

/-- The second of two ends of runs is like the first. `lost` says of no steps left, or of a fault,
that nothing is claimed once the first run has come to it. -/
inductive Follows {σ τ : Type} (lost : Option Fault → Prop) (S : σ → τ → Prop)
    (A : α₁ → α₂ → Prop) : Option (Except Error α₁ × σ) → Option (Except Error α₂ × τ) → Prop
  | ok {a : α₁} {b : α₂} {s : σ} {t : τ} (hr : A a b) (hs : S s t) :
    Follows lost S A (some (.ok a, s)) (some (.ok b, t))
  | error {e : Error} {s : σ} {t : τ} (hs : S s t) :
    Follows lost S A (some (.error e, s)) (some (.error e, t))
  | exhausted : Follows lost S A none none
  | short {y : Option (Except Error α₂ × τ)} (h : lost none) : Follows lost S A none y
  | lost {e : Error} {s : σ} {y : Option (Except Error α₂ × τ)} (h : lost (some e.fault)) :
    Follows lost S A (some (.error e, s)) y

/-- States that keep corresponding to each other when the same happens to both. -/
structure Correspondence (V : Vocabulary)
    (Stored : UserFunction β₁ → UserFunction β₂ → Prop)
    (S : State β₁ → State β₂ → Prop) : Prop where
  lookup {s : State β₁} {t : State β₂} {name : String} : V.Name name → S s t →
    s.env.lookup name = t.env.lookup name ∧ ∀ v ∈ s.env.lookup name, V.Good v
  assign {s : State β₁} {t : State β₂} {name : String} {v : Value} :
    V.Name name → V.Good v → S s t →
    S { s with env := s.env.assign name v.normalized }
      { t with env := t.env.assign name v.normalized }
  function? {s : State β₁} {t : State β₂} {name : String} : V.Name name → S s t →
    Option.Rel Stored (s.env.function? name) (t.env.function? name)
  define {s : State β₁} {t : State β₂} {f : UserFunction β₁} {g : UserFunction β₂} :
    Stored f g → S s t → S { s with env := s.env.define f } { t with env := t.env.define g }
  print {s : State β₁} {t : State β₂} {v : Value} : V.Good v → S s t →
    S { s with output := s.output.push v.display } { t with output := t.output.push v.display }

/-- The states before a body, and those after it, correspond if those around the call do. -/
structure Calls (lost : Option Fault → Prop) (S : State β₁ → State β₂ → Prop)
    (o₁ o₂ : Options) : Prop where
  refused {s : State β₁} {t : State β₂} {f : Fault} : S s t → s.env.enter = .error f →
    lost (some f) ∨ t.env.enter = .error f
  entered {s : State β₁} {t : State β₂} {e₁ : Environment β₁} : S s t → s.env.enter = .ok e₁ →
    ∃ e₂, t.env.enter = .ok e₂ ∧
      S { s with env := e₁.pushCall o₁.callScope } { t with env := e₂.pushCall o₂.callScope }
  left {s : State β₁} {t : State β₂} : S s t →
    S { s with env := s.env.pop.exit } { t with env := t.env.pop.exit }

/-- If the states around a call correspond in one way, then those before its body and those after
it correspond in another. -/
structure CallsInto (lost : Option Fault → Prop) (S T : State β₁ → State β₂ → Prop)
    (o₁ o₂ : Options) : Prop where
  refused {s : State β₁} {t : State β₂} {f : Fault} : S s t → s.env.enter = .error f →
    lost (some f) ∨ t.env.enter = .error f
  entered {s : State β₁} {t : State β₂} {e₁ : Environment β₁} : S s t → s.env.enter = .ok e₁ →
    ∃ e₂, t.env.enter = .ok e₂ ∧
      T { s with env := e₁.pushCall o₁.callScope } { t with env := e₂.pushCall o₂.callScope }
  left {s : State β₁} {t : State β₂} : T s t →
    S { s with env := s.env.pop.exit } { t with env := t.env.pop.exit }

theorem Calls.into {lost : Option Fault → Prop} {S : State β₁ → State β₂ → Prop}
    {o₁ o₂ : Options} (k : Calls lost S o₁ o₂) : CallsInto lost S S o₁ o₂ where
  refused := k.refused
  entered := k.entered
  left := k.left

namespace Follows
variable {lost : Option Fault → Prop} {S T : State β₁ → State β₂ → Prop} {A : α₁ → α₂ → Prop}
  {C : γ₁ → γ₂ → Prop} {o₁ o₂ : Options} {s : State β₁} {t : State β₂}

theorem refl {α σ : Type} (p : Option (Except Error α × σ)) : Follows lost Eq Eq p p := by
  rcases p with _ | ⟨_ | _, _⟩
  · exact .exhausted
  · exact .error rfl
  · exact .ok rfl rfl

/-- Where no run is let go, and a state corresponds to no other than `g` of it, the second end is
`g` of the first. -/
theorem eq_map {α σ τ : Type} {P : α → Prop} {S : σ → τ → Prop} {g : σ → τ}
    {x : Option (Except Error α × σ)} {y : Option (Except Error α × τ)}
    (h : Follows (fun _ => False) S (Same P) x y) (hg : ∀ s t, S s t → t = g s) :
    y = x.map (Prod.map id g) := by
  cases h with
  | ok hr hs =>
    rw [hr.1, hg _ _ hs]
    rfl
  | error hs =>
    rw [hg _ _ hs]
    rfl
  | exhausted => rfl
  | short h => exact h.elim
  | lost h => exact h.elim

/-- Where no run is let go, and a state corresponds to no other than itself, the ends are one. -/
theorem eq {α σ : Type} {P : α → Prop} {x y : Option (Except Error α × σ)}
    (h : Follows (fun _ => False) Eq (Same P) x y) : x = y := by
  have hmap := h.eq_map (g := id) fun _ _ hs => hs.symm
  simpa using hmap.symm

/-- The rest is only run from the state that the first part of the first run ends in. -/
theorem bind_of_end {x : Evaluation β₁ α₁} {y : Evaluation β₂ α₂} {f : α₁ → Evaluation β₁ γ₁}
    {g : α₂ → Evaluation β₂ γ₂} (h : Follows lost S A (x o₁ s) (y o₂ t))
    (hf : ∀ a s', x o₁ s = some (.ok a, s') → ∀ b t', A a b → S s' t' →
      Follows lost S C (f a o₁ s') (g b o₂ t')) :
    Follows lost S C ((x >>= f) o₁ s) ((y >>= g) o₂ t) := by
  simp only [Bind.bind]
  generalize x o₁ s = p at h hf
  generalize y o₂ t = q at h
  cases h with
  | ok hr hs => exact hf _ _ rfl _ _ hr hs
  | error hs => exact .error hs
  | exhausted => exact .exhausted
  | short h => exact .short h
  | lost h => exact .lost h

theorem bind {x : Evaluation β₁ α₁} {y : Evaluation β₂ α₂} {f : α₁ → Evaluation β₁ γ₁}
    {g : α₂ → Evaluation β₂ γ₂} (h : Follows lost S A (x o₁ s) (y o₂ t))
    (hf : ∀ a b, A a b → ∀ s t, S s t → Follows lost S C (f a o₁ s) (g b o₂ t)) :
    Follows lost S C ((x >>= f) o₁ s) ((y >>= g) o₂ t) :=
  h.bind_of_end fun a _ _ b _ hr hs => hf a b hr _ _ hs

theorem located (form : List Token) {x : Evaluation β₁ α₁} {y : Evaluation β₂ α₂}
    (h : Follows lost S A (x o₁ s) (y o₂ t)) :
    Follows lost S A (Evaluation.located form x o₁ s) (Evaluation.located form y o₂ t) := by
  simp only [Evaluation.located]
  generalize x o₁ s = p at h
  generalize y o₂ t = q at h
  cases h with
  | ok hr hs => exact .ok hr hs
  | error hs => exact .error hs
  | exhausted => exact .exhausted
  | short h => exact .short h
  | lost h => exact .lost (by rwa [Error.fault_locate])

/-- The body is only run from the state that the first call enters it in. -/
theorem called_into {x : Evaluation β₁ α₁} {y : Evaluation β₂ α₂} (k : CallsInto lost S T o₁ o₂)
    (hs : S s t)
    (h : ∀ e, s.env.enter = .ok e → ∀ u, T { s with env := e.pushCall o₁.callScope } u →
      Follows lost T A (x o₁ { s with env := e.pushCall o₁.callScope }) (y o₂ u)) :
    Follows lost S A (Evaluation.called x o₁ s) (Evaluation.called y o₂ t) := by
  simp only [Evaluation.called]
  cases he : s.env.enter with
  | error f =>
    rcases k.refused hs he with hl | ht
    · exact .lost hl
    · simp only [ht]
      exact .error hs
  | ok e₁ =>
    obtain ⟨e₂, ht, hin⟩ := k.entered hs he
    simp only [ht]
    have hbody := h e₁ he _ hin
    generalize x o₁ _ = p at hbody ⊢
    generalize y o₂ _ = q at hbody ⊢
    cases hbody with
    | ok hr hs => exact .ok hr (k.left hs)
    | error hs => exact .error (k.left hs)
    | exhausted => exact .exhausted
    | short h => exact .short h
    | lost h => exact .lost h

theorem called {x : Evaluation β₁ α₁} {y : Evaluation β₂ α₂} (k : Calls lost S o₁ o₂)
    (hs : S s t) (h : ∀ s t, S s t → Follows lost S A (x o₁ s) (y o₂ t)) :
    Follows lost S A (Evaluation.called x o₁ s) (Evaluation.called y o₂ t) :=
  called_into k.into hs fun _ _ _ hu => h _ _ hu

/-- Whether a loop may go on depends on its limit, which no state has a say in. -/
theorem guardRound (n : Nat) {o : Options} (hs : S s t) :
    Follows lost S Eq (Evaluation.guardRound n o s) (Evaluation.guardRound n o t) := by
  simp only [Evaluation.guardRound]
  split
  · split
    · exact .error hs
    · exact .ok rfl hs
  · exact .ok rfl hs

end Follows

/-- Runs from corresponding states, of which the second follows the first. -/
def Correspondence.coupling {V : Vocabulary} {Stored : UserFunction β₁ → UserFunction β₂ → Prop}
    {S : State β₁ → State β₂ → Prop} (k : Correspondence V Stored S)
    (lost : Option Fault → Prop) (o₁ o₂ : Options) :
    Coupling V (Evaluation β₁) (Evaluation β₂) where
  Stored := Stored
  Rel A x y := ∀ s t, S s t → Follows lost S A (x o₁ s) (y o₂ t)
  pure h _ _ hs := .ok h hs
  bind hx hf _ _ hs := (hx _ _ hs).bind fun a b hr => hf a b hr
  fail _ _ _ hs := .error hs
  inForm form h _ _ hs := (h _ _ hs).located form
  lookup hn _ _ hs := .ok ⟨(k.lookup hn hs).1, (k.lookup hn hs).2⟩ hs
  assign hn hv _ _ hs := .ok rfl (k.assign hn hv hs)
  function? hn _ _ hs := .ok (k.function? hn hs) hs
  define hf _ _ hs := .ok rfl (k.define hf hs)
  print hv _ _ hs := .ok rfl (k.print hv hs)

/-- Runs from states that correspond in any of several ways, each of which is kept from the
beginning to the end. -/
def Correspondence.family {V : Vocabulary} {Stored : UserFunction β₁ → UserFunction β₂ → Prop}
    {ι : Type} {S : ι → State β₁ → State β₂ → Prop} (k : ∀ i, Correspondence V Stored (S i))
    (lost : Option Fault → Prop) (o₁ o₂ : Options) :
    Coupling V (Evaluation β₁) (Evaluation β₂) where
  Stored := Stored
  Rel A x y := ∀ i, ((k i).coupling lost o₁ o₂).Rel A x y
  pure h i := ((k i).coupling lost o₁ o₂).pure h
  bind hx hf i := ((k i).coupling lost o₁ o₂).bind (hx i) fun a b hr => hf a b hr i
  fail f i := ((k i).coupling lost o₁ o₂).fail f
  inForm form h i := ((k i).coupling lost o₁ o₂).inForm form (h i)
  lookup hn i := ((k i).coupling lost o₁ o₂).lookup hn
  assign hn hv i := ((k i).coupling lost o₁ o₂).assign hn hv
  function? hn i := ((k i).coupling lost o₁ o₂).function? hn
  define hf i := ((k i).coupling lost o₁ o₂).define hf
  print hv i := ((k i).coupling lost o₁ o₂).print hv

end FlatLisp
