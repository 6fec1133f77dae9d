import FlatLisp.Proofs.Ending

/-! Evaluations that are traced. The trace has the nesting of what went on: what a form or a call
came to while it was evaluated stands within it. -/
namespace FlatLisp
open Machine Eval Evaluation

variable {β α γ : Type}

/-- A form that was evaluated, with the error that its evaluation raised, or the body of a function
that was called. -/
inductive Visit (β : Type)
  | form (tokens : List Token) (inner : List (Visit β)) (raised : Option Error)
  | call (f : UserFunction β) (inner : List (Visit β))

namespace Visit

/-- The visit is one of those in the trace or took place during one of them. -/
inductive Within (v : Visit β) : List (Visit β) → Prop
  | here {visits : List (Visit β)} : v ∈ visits → Within v visits
  | form {tokens : List Token} {raised : Option Error} {inner visits : List (Visit β)} :
      .form tokens inner raised ∈ visits → Within v inner → Within v visits
  | call {f : UserFunction β} {inner visits : List (Visit β)} :
      .call f inner ∈ visits → Within v inner → Within v visits

variable {v : Visit β} {visits later inner : List (Visit β)}

theorem Within.mono (h : v.Within visits) (hs : visits ⊆ later) : v.Within later := by
  cases h with
  | here hm => exact .here (hs hm)
  | form hm hv => exact .form (hs hm) hv
  | call hm hv => exact .call (hs hm) hv

@[simp] theorem not_within_nil : ¬ v.Within [] := by
  rintro (hm | ⟨hm, -⟩ | ⟨hm, -⟩) <;> cases hm

@[simp] theorem within_append : v.Within (visits ++ later) ↔ v.Within visits ∨ v.Within later := by
  constructor
  · intro h
    cases h with
    | here hm => exact (List.mem_append.mp hm).imp .here .here
    | form hm hv => exact (List.mem_append.mp hm).imp (.form · hv) (.form · hv)
    | call hm hv => exact (List.mem_append.mp hm).imp (.call · hv) (.call · hv)
  · rintro (h | h)
    · exact h.mono (List.subset_append_left _ _)
    · exact h.mono (List.subset_append_right _ _)

@[simp] theorem within_form {tokens : List Token} {raised : Option Error} :
    v.Within [.form tokens inner raised] ↔ v = .form tokens inner raised ∨ v.Within inner := by
  constructor
  · intro h
    cases h with
    | here hm => exact .inl (List.mem_singleton.mp hm)
    | form hm hv =>
      cases List.mem_singleton.mp hm
      exact .inr hv
    | call hm hv => cases List.mem_singleton.mp hm
  · rintro (rfl | h)
    · exact .here (by simp)
    · exact .form (List.mem_singleton_self _) h

@[simp] theorem within_call {f : UserFunction β} :
    v.Within [.call f inner] ↔ v = .call f inner ∨ v.Within inner := by
  constructor
  · intro h
    cases h with
    | here hm => exact .inl (List.mem_singleton.mp hm)
    | form hm hv => cases List.mem_singleton.mp hm
    | call hm hv =>
      cases List.mem_singleton.mp hm
      exact .inr hv
  · rintro (rfl | h)
    · exact .here (by simp)
    · exact .call (List.mem_singleton_self _) h

end Visit

/-- The error in which a run ended, if it did so. -/
def raisedBy? {σ : Type} : Option (Except Error α × σ) → Option Error
  | some (.error e, _) => some e
  | _ => none

theorem raisedBy?_eq_some {σ : Type} {last : Option (Except Error α × σ)} {e : Error}
    (h : raisedBy? last = some e) : ∃ s, last = some (.error e, s) := by
  match last, h with
  | some (.error _, s), rfl => exact ⟨s, rfl⟩

/-- An evaluation that keeps a trace. -/
def Traced (β α : Type) : Type :=
  Options → State β → List (Visit β) × Option (Except Error α × State β)

namespace Traced

/-- The evaluation without its trace. -/
def untraced (x : Traced β α) : Evaluation β α := fun o s => (x o s).2

/-- An effect that leaves no trace. -/
def silently (x : Evaluation β α) : Traced β α := fun o s => ([], x o s)

instance : Monad (Traced β) where
  pure a := silently (pure a)
  bind x f := fun o s =>
    match x o s with
    | (visits, some (.ok a, t)) => (visits ++ (f a o t).1, (f a o t).2)
    | (visits, some (.error e, t)) => (visits, some (.error e, t))
    | (visits, none) => (visits, none)

/-- A call that is refused leaves no trace, since no body is evaluated for it. -/
def visitsOfCall (f : UserFunction β) (x : Traced β α) (o : Options) (s : State β) :
    List (Visit β) :=
  match s.env.enter with
  | .error _ => []
  | .ok env => [.call f (x o { s with env := env.pushCall o.callScope }).1]

instance : Machine β (Traced β) where
  fail f := silently (throwFault f)
  exhausted := silently fun _ _ => none
  inForm form x := fun o s =>
    ([.form form (x o s).1 (raisedBy? (x o s).2)], located form x.untraced o s)
  inCall f x := fun o s => (visitsOfCall f x o s, called x.untraced o s)
  lookup name := silently (read (·.lookup name))
  assign name v := silently (modify (·.assign name v))
  function? name := silently (read (·.function? name))
  define f := silently (modify (·.define f))
  print line := silently (printLine line)
  startRound n := silently (guardRound n)

abbrev ofForm (tokens : List Token) (steps : Nat) : Traced (List Token) Value :=
  evaluate steps tokens

abbrev ofProgram (tokens : List Token) (steps : Nat) : Traced (List Token) Value :=
  evaluateProgram steps tokens

theorem untraced_bind (x : Traced β α) (f : α → Traced β γ) :
    (x >>= f).untraced = x.untraced >>= fun a => (f a).untraced := by
  funext o s
  simp only [untraced, Bind.bind]
  rcases x o s with ⟨visits, _ | ⟨_ | _, _⟩⟩ <;> rfl

end Traced

/-- A traced run goes the way of one that is not traced. -/
def untracing : Coupling .full (Traced (List Token)) (Evaluation (List Token)) where
  Stored := Eq
  Rel A x y := ∀ o s, Follows (fun _ => False) Eq A (x.untraced o s) (y o s)
  pure h _ _ := .ok h rfl
  bind := by
    intro _ _ _ _ A C x y f g hx hf o s
    rw [Traced.untraced_bind]
    refine (hx o s).bind fun a b hr t u htu => ?_
    obtain rfl := htu
    exact hf a b hr o t
  fail _ _ _ := .error rfl
  inForm form h o s := (h o s).located form
  lookup _ _ _ := .ok ⟨rfl, fun _ _ => trivial⟩ rfl
  assign _ _ _ _ := .ok rfl rfl
  function? _ _ _ := .ok (optionRel_eq _) rfl
  define hf _ _ := .ok rfl (hf ▸ rfl)
  print _ _ _ := .ok rfl rfl

theorem untracing_uniform : untracing.Uniform (fun _ => True) 0 := by
  apply Coupling.Uniform.of_full_zero
  · exact fun _ _ => Iff.rfl
  · exact fun _ _ => .exhausted
  · exact fun n o s => .refl _
  · intro f x y h o s
    refine Follows.called (calls_eq _ o) rfl fun t u htu => ?_
    obtain rfl := htu
    exact h o t

namespace Traced

theorem untraced_ofForm (tokens : List Token) (steps : Nat) :
    (ofForm tokens steps).untraced = Evaluation.ofForm tokens steps := by
  funext o s
  exact (untracing_uniform.rel_evaluate steps trivial o s).eq

theorem untraced_ofProgram (tokens : List Token) (steps : Nat) :
    (ofProgram tokens steps).untraced = Evaluation.ofProgram tokens steps := by
  funext o s
  have h := untracing_uniform.rel_evaluateProgram steps (fun x (_ : x <:+: tokens) => trivial)
  exact (h o s).eq

end Traced
end FlatLisp
