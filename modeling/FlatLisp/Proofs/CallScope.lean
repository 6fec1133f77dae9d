import FlatLisp.Proofs.Accounting

/-! The two kinds of scope that a call may begin with. They differ for calls within calls only: a
call at top level has nothing to copy and nothing to hide. -/
namespace FlatLisp
open Machine Evaluation

variable {β : Type}

def Event.isCall : Event β → Bool
  | .call _ => true
  | _ => false

/-- A call begins while no other one is active. -/
def Moment.Unnested (m : Moment β) : Prop := m.event.isCall → m.calls.isEmpty

instance (m : Moment β) : Decidable m.Unnested :=
  inferInstanceAs (Decidable (m.event.isCall → m.calls.isEmpty))

def Scope.isolate (a : Scope) : Scope := { a with isolated := true }

namespace Environment

def isolate (env : Environment β) : Environment β :=
  { env with scopes := env.scopes.map Scope.isolate }

variable {env : Environment β}

theorem isolate_eq_self (h : env.scopes = []) : env.isolate = env := by
  rw [isolate, h, List.map_nil, ← h]

/-- The only scope is searched, and then the globals, whether it is isolated or not. -/
theorem lookup_isolate (h : env.scopes.length ≤ 1) (name : String) :
    env.isolate.lookup name = env.lookup name := by
  cases hs : env.scopes with
  | nil => simp [lookup, isolate, hs, lookupIn]
  | cons a rest =>
    obtain rfl : rest = [] := by simpa [hs] using h
    simp only [lookup, isolate, hs, lookupIn, List.map_cons, List.map_nil, Scope.isolate]
    cases a.isolated <;> rfl

theorem assign_isolate (env : Environment β) (name : String) (v : Value) :
    env.isolate.assign name v = (env.assign name v).isolate := by
  cases hs : env.scopes <;> simp [assign, isolate, hs, Scope.isolate, Scope.define]

end Environment

/-- At most one call is active, it has the only scope, and in the second state this scope is
isolated. -/
structure Beside (calls : List (UserFunction β)) (s t : State β) : Prop where
  eq : t = { s with env := s.env.isolate }
  length : s.env.scopes.length = calls.length
  single : calls.length ≤ 1

theorem beside_self {s : State β} (hs : s.env.scopes = []) : Beside [] s s where
  eq := by rw [Environment.isolate_eq_self hs]
  length := congrArg List.length hs
  single := Nat.zero_le 1

theorem Beside.eq_self {s t : State β} (h : Beside [] s t) : t = s := by
  rw [h.eq, Environment.isolate_eq_self (List.length_eq_zero_iff.mp h.length)]

theorem correspondence_beside (calls : List (UserFunction β)) :
    Correspondence .full Eq (Beside calls) where
  lookup := by
    intro s t name _ h
    rw [h.eq, Environment.lookup_isolate (h.length ▸ h.single)]
    exact ⟨rfl, fun _ _ => trivial⟩
  assign := by
    intro s t name v _ _ h
    obtain ⟨rfl, hl, hone⟩ := h
    refine ⟨?_, ?_, hone⟩
    · rw [Environment.assign_isolate]
    · rw [← hl, Environment.length_scopes_assign]
  function? := by
    intro s t name _ h
    rw [h.eq]
    exact optionRel_eq _
  define := by
    intro s t f g hf h
    obtain ⟨rfl, hl, hone⟩ := h
    rw [hf]
    exact ⟨rfl, hl, hone⟩
  print := by
    intro s t v _ h
    obtain ⟨rfl, hl, hone⟩ := h
    exact ⟨rfl, hl, hone⟩

/-- At top level a copy of the caller's scope is an empty scope. -/
theorem calls_beside (f : UserFunction β) (rounds : Option Nat) :
    CallsInto (fun _ => False) (Beside []) (Beside [f]) ⟨.copyCaller, rounds⟩
      ⟨.parametersOnly, rounds⟩ where
  refused := by
    intro s t g h he
    rw [h.eq_self]
    exact .inr he
  entered := by
    intro s t e h he
    have hs : s.env.scopes = [] := List.length_eq_zero_iff.mp h.length
    rw [h.eq_self]
    obtain ⟨-, rfl⟩ := Environment.enter_eq_ok_iff.mp he
    refine ⟨_, he, ?_, ?_, ?_⟩
    · simp [Environment.pushCall, Environment.pushCopy, Environment.pushIsolated,
        Environment.push, Environment.isolate, Scope.isolate, hs]
    · simp [Environment.pushCall, Environment.pushCopy, Environment.push, hs]
    · exact Nat.le_refl 1
  left := by
    intro s t h
    obtain ⟨rfl, hl, -⟩ := h
    refine ⟨?_, ?_, Nat.zero_le 1⟩
    · simp [Environment.isolate, Environment.pop, Environment.exit]
    · simp [Environment.pop, Environment.exit, hl]

/-- A watched run in which calls copy their caller's scope, beside one in which they begin with
their parameters only, as far as the first one has no calls within calls. -/
def withoutNesting (rounds : Option Nat) :
    Coupling .full (Watched (List Token)) (Evaluation (List Token)) where
  Stored := Eq
  Rel A x y := ∀ calls s t, Beside calls s t →
    (∀ m ∈ (x ⟨.copyCaller, rounds⟩ calls s).1, m.Unnested) →
    Follows (fun _ => False) (Beside calls) A (x.unwatched calls ⟨.copyCaller, rounds⟩ s)
      (y ⟨.parametersOnly, rounds⟩ t)
  pure h _ _ _ hs _ := .ok h hs
  bind := by
    intro _ _ _ _ A C x y f g hx hf calls s t hs hseen
    -- The record has that of the first part, and that of the rest where the first part succeeds.
    rw [Watched.unwatched_bind]
    have hfirst := hx calls s t hs fun m hm => hseen m (Watched.subset_bind hm)
    refine hfirst.bind_of_end ?_
    intro a s' ha b t' hr hs'
    refine hf a b hr calls s' t' hs' fun m hm => hseen m ?_
    rw [Watched.fst_bind ha]
    exact List.mem_append_right _ hm
  fail _ _ _ _ hs _ := .error hs
  inForm form h calls s t hs hseen :=
    (h calls s t hs fun m hm => hseen m (List.mem_cons_of_mem _ hm)).located form
  lookup hn calls _ _ hs _ := .ok ((correspondence_beside calls).lookup hn hs) hs
  assign hn hv calls _ _ hs _ := .ok rfl ((correspondence_beside calls).assign hn hv hs)
  function? hn calls _ _ hs _ := .ok ((correspondence_beside calls).function? hn hs) hs
  define hf calls _ _ hs _ := .ok rfl ((correspondence_beside calls).define hf hs)
  print hv calls _ _ hs _ := .ok rfl ((correspondence_beside calls).print hv hs)

theorem withoutNesting_uniform (rounds : Option Nat) :
    (withoutNesting rounds).Uniform (fun _ => True) 0 := by
  apply Coupling.Uniform.of_full_zero
  · exact fun _ _ => Iff.rfl
  · exact fun _ _ _ _ _ => .exhausted
  · exact fun n calls s t hs _ => .guardRound n hs
  · intro f x y h calls s t hs hseen
    obtain ⟨hcall, hduring⟩ := List.forall_mem_cons.mp hseen
    -- The call itself is in the record, so there is none around it.
    obtain rfl : calls = [] := List.isEmpty_iff.mp (hcall rfl)
    refine Follows.called_into (calls_beside f rounds) hs ?_
    intro e he u hu
    refine h [f] _ u hu fun m hm => hduring m ?_
    exact Watched.subset_duringCall f x _ [] he hm

/-- At top level, a program that calls no function from within a call is the same under both
rules. -/
theorem ofProgram_of_unnested {tokens : List Token} {steps : Nat} {rounds : Option Nat}
    {s : State (List Token)} (hs : s.env.scopes = [])
    (h : ∀ m ∈ (Watched.ofProgram tokens steps ⟨.copyCaller, rounds⟩ [] s).1, m.Unnested) :
    ofProgram tokens steps ⟨.parametersOnly, rounds⟩ s =
      ofProgram tokens steps ⟨.copyCaller, rounds⟩ s := by
  have hfollows := (withoutNesting_uniform rounds).rel_evaluateProgram steps
    (fun x (_ : x <:+: tokens) => trivial) [] s s (beside_self hs) h
  have heq := hfollows.eq_map (g := id) fun _ _ hst => hst.eq_self
  rw [unwatched_ofProgram] at heq
  simpa using heq

end FlatLisp
