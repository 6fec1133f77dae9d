import FlatLisp.Proofs.Frame

/-! Evaluations that are watched. They keep a record of all that they do, with the state that they
do it in, and a property that every effect keeps holds throughout the record. -/
namespace FlatLisp
open Machine Eval Nesting Evaluation

variable {β α γ : Type}

/-- What a host has evaluated: one form, a program, or a special form on operands of its own, with a
number of rounds to run in its loops. -/
inductive Request
  | form (tokens : List Token)
  | program (tokens : List Token)
  | special (kind : SpecialForm) (operands : List (List Token)) (rounds : Nat)

namespace Request
variable {m m₁ m₂ : Type → Type} [Machine (List Token) m] [Machine (List Token) m₁]
  [Machine (List Token) m₂]

def eval (steps : Nat) : Request → m Value
  | form tokens => evaluate steps tokens
  | program tokens => evaluateProgram steps tokens
  | special kind operands rounds => evalSpecial (evalForm steps) rounds kind operands

/-- The tokens that the request is made of. -/
def tokens : Request → List Token
  | form tokens => tokens
  | program tokens => tokens
  | special _ operands _ => operands.flatten

/-- The operands of a special form are not parts of a form, so what they define is looked at
on its own. -/
theorem rel_eval_of_code {V : Vocabulary} {c : Coupling V m₁ m₂} {Code : List Token → Prop}
    {extra : Nat} (u : c.Uniform Code extra)
    (hd : ∀ xs f, (∀ x ∈ xs, Code x) → Defines xs f → c.Stored f f) (steps : Nat)
    (request : Request) (h : ∀ x, x <:+: request.tokens → Code x) :
    c.Rel (Same V.Good) (request.eval steps) (request.eval (steps + extra)) := by
  cases request with
  | form tokens => exact u.rel_evaluate steps (h tokens (List.infix_refl tokens))
  | program tokens => exact u.rel_evaluateProgram steps h
  | special kind operands rounds =>
    have hcode : ∀ x ∈ operands, Code x := fun x hx => h x (isInfix_flatten_of_mem hx)
    have hdefine := fun f hf => hd operands f hcode hf
    exact Coupling.rel_evalSpecial (u.loops_alike rounds) (u.operands steps hcode) hdefine kind

theorem rel_eval {c : Coupling .full m₁ m₂} {extra : Nat} (u : c.Uniform (fun _ => True) extra)
    (hs : ∀ f, c.Stored f f) (steps : Nat) (request : Request) :
    c.Rel (Same fun _ => True) (request.eval steps) (request.eval (steps + extra)) :=
  rel_eval_of_code u (fun _ f _ _ => hs f) steps request fun _ _ => trivial

end Request

abbrev Evaluation.ofRequest (request : Request) (steps : Nat) : Evaluation (List Token) Value :=
  request.eval steps

theorem endsIn_ofRequest_iff {request : Request} {o : Options} {s : State (List Token)}
    {r : Except Error Value × State (List Token)} :
    EndsIn (ofRequest request) o s r ↔ ∃ steps, ofRequest request steps o s = some r :=
  endsIn_iff fun steps extra => request.rel_eval (moreSteps_uniform o extra) (fun _ => rfl) steps

/-- What an evaluation is about to do. -/
inductive Event (β : Type)
  | form (tokens : List Token)
  | call (f : UserFunction β)
  /-- The body of a call is over, and the call ends. -/
  | leave (f : UserFunction β)
  | lookup (name : String)
  | assign (name : String) (v : Value)
  | function (name : String)
  | define (f : UserFunction β)
  | print (line : String)
  | round (n : Nat)
  | fail (f : Fault)

/-- A moment of an evaluation. Of the calls that are active, the innermost comes first. -/
structure Moment (β : Type) where
  event : Event β
  calls : List (UserFunction β)
  state : State β

/-- A call ends while it is the innermost one. -/
def Moment.WellNested (m : Moment β) : Prop := ∀ f, m.event = .leave f → m.calls.head? = some f

/-- An evaluation within some calls that keeps a record. Where the steps run out, the record is
still there. -/
def Watched (β α : Type) : Type :=
  Options → List (UserFunction β) → State β →
    List (Moment β) × Option (Except Error α × State β)

namespace Watched

/-- The evaluation without its record. -/
def unwatched (x : Watched β α) (calls : List (UserFunction β)) : Evaluation β α := fun o s =>
  (x o calls s).2

/-- An effect that is an event of its own. -/
def noting (event : Event β) (x : Evaluation β α) : Watched β α := fun o calls s =>
  ([⟨event, calls, s⟩], x o s)

instance : Monad (Watched β) where
  pure a := fun _ _ s => ([], some (.ok a, s))
  bind x f := fun o calls s =>
    match x o calls s with
    | (seen, some (.ok a, t)) => (seen ++ (f a o calls t).1, (f a o calls t).2)
    | (seen, some (.error e, t)) => (seen, some (.error e, t))
    | (seen, none) => (seen, none)

/-- What happens from the beginning of a call to its end, if it is admitted. -/
def duringCall (f : UserFunction β) (x : Watched β α) (o : Options)
    (calls : List (UserFunction β)) (s : State β) : List (Moment β) :=
  match s.env.enter with
  | .error _ => []
  | .ok env =>
    match x o (f :: calls) { s with env := env.pushCall o.callScope } with
    | (seen, some (_, t)) => seen ++ [⟨.leave f, f :: calls, t⟩]
    | (seen, none) => seen

instance : Machine β (Watched β) where
  fail f := noting (.fail f) (throwFault f)
  exhausted := fun _ _ _ => ([], none)
  inForm form x := fun o calls s =>
    (⟨.form form, calls, s⟩ :: (x o calls s).1, located form (x.unwatched calls) o s)
  inCall f x := fun o calls s =>
    (⟨.call f, calls, s⟩ :: duringCall f x o calls s, called (x.unwatched (f :: calls)) o s)
  lookup name := noting (.lookup name) (read (·.lookup name))
  assign name v := noting (.assign name v) (modify (·.assign name v))
  function? name := noting (.function name) (read (·.function? name))
  define f := noting (.define f) (modify (·.define f))
  print line := noting (.print line) (printLine line)
  startRound n := noting (.round n) (guardRound n)

abbrev ofRequest (request : Request) (steps : Nat) : Watched (List Token) Value :=
  request.eval steps

abbrev ofProgram (tokens : List Token) (steps : Nat) : Watched (List Token) Value :=
  evaluateProgram steps tokens

theorem unwatched_bind (x : Watched β α) (f : α → Watched β γ) (calls : List (UserFunction β)) :
    (x >>= f).unwatched calls = x.unwatched calls >>= fun a => (f a).unwatched calls := by
  funext o s
  simp only [unwatched, Bind.bind]
  rcases x o calls s with ⟨seen, _ | ⟨_ | _, _⟩⟩ <;> rfl

theorem fst_bind {x : Watched β α} {f : α → Watched β γ} {o : Options}
    {calls : List (UserFunction β)} {s t : State β} {a : α}
    (h : (x o calls s).2 = some (.ok a, t)) :
    ((x >>= f) o calls s).1 = (x o calls s).1 ++ (f a o calls t).1 := by
  simp only [Bind.bind]
  rcases hr : x o calls s with ⟨seen, last⟩
  rw [hr] at h
  obtain rfl : last = _ := h
  rfl

theorem subset_bind {x : Watched β α} {f : α → Watched β γ} {o : Options}
    {calls : List (UserFunction β)} {s : State β} :
    (x o calls s).1 ⊆ ((x >>= f) o calls s).1 := by
  simp only [Bind.bind]
  rcases x o calls s with ⟨seen, _ | ⟨_ | _, _⟩⟩ <;> simp

theorem subset_duringCall (f : UserFunction β) (x : Watched β α) (o : Options)
    (calls : List (UserFunction β)) {s : State β} {e : Environment β} (he : s.env.enter = .ok e) :
    (x o (f :: calls) { s with env := e.pushCall o.callScope }).1 ⊆ duringCall f x o calls s := by
  simp only [duringCall, he]
  rcases x o (f :: calls) { s with env := e.pushCall o.callScope } with ⟨seen, _ | ⟨_, _⟩⟩ <;> simp

end Watched

open Watched

/-- A watched run goes the way of one that nobody watches. -/
def unwatching : Coupling .full (Watched (List Token)) (Evaluation (List Token)) where
  Stored := Eq
  Rel A x y := ∀ calls o s, Follows (fun _ => False) Eq A (x.unwatched calls o s) (y o s)
  pure h _ _ _ := .ok h rfl
  bind := by
    intro _ _ _ _ A C x y f g hx hf calls o s
    rw [unwatched_bind]
    refine (hx calls o s).bind fun a b hr t u htu => ?_
    obtain rfl := htu
    exact hf a b hr calls o t
  fail _ _ _ _ := .error rfl
  inForm form h calls o s := (h calls o s).located form
  lookup _ _ _ _ := .ok ⟨rfl, fun _ _ => trivial⟩ rfl
  assign _ _ _ _ _ := .ok rfl rfl
  function? _ _ _ _ := .ok (optionRel_eq _) rfl
  define hf _ _ _ := .ok rfl (hf ▸ rfl)
  print _ _ _ _ := .ok rfl rfl

theorem unwatching_uniform : unwatching.Uniform (fun _ => True) 0 := by
  apply Coupling.Uniform.of_full_zero
  · exact fun _ _ => Iff.rfl
  · exact fun _ _ _ => .exhausted
  · exact fun n calls o s => .refl _
  · intro f x y h calls o s
    refine Follows.called (calls_eq _ o) rfl fun t u htu => ?_
    obtain rfl := htu
    exact h (f :: calls) o t

theorem unwatched_eq {P : α → Prop} {x : Watched (List Token) α} {y : Evaluation (List Token) α}
    (h : unwatching.Rel (Same P) x y) (calls : List (UserFunction (List Token))) :
    x.unwatched calls = y := by
  funext o s
  exact (h calls o s).eq

theorem unwatched_ofRequest (request : Request) (steps : Nat)
    (calls : List (UserFunction (List Token))) :
    (Watched.ofRequest request steps).unwatched calls = Evaluation.ofRequest request steps :=
  unwatched_eq (request.rel_eval unwatching_uniform (fun _ => rfl) steps) calls

theorem unwatched_ofProgram (tokens : List Token) (steps : Nat)
    (calls : List (UserFunction (List Token))) :
    (Watched.ofProgram tokens steps).unwatched calls = Evaluation.ofProgram tokens steps :=
  unwatched_ofRequest (.program tokens) steps calls

/-- The effects of an evaluation keep a property of the active calls and the state. -/
structure Invariant (I : List (UserFunction β) → State β → Prop) : Prop where
  assign {calls : List (UserFunction β)} {s : State β} (name : String) (v : Value) :
    I calls s → I calls { s with env := s.env.assign name v }
  define {calls : List (UserFunction β)} {s : State β} (f : UserFunction β) :
    I calls s → I calls { s with env := s.env.define f }
  print {calls : List (UserFunction β)} {s : State β} (line : String) :
    I calls s → I calls { s with output := s.output.push line }
  enter {calls : List (UserFunction β)} {s : State β} {e : Environment β} (f : UserFunction β)
    (rule : CallScope) : I calls s → s.env.enter = .ok e →
      I (f :: calls) { s with env := e.pushCall rule }
  leave {calls : List (UserFunction β)} {s : State β} {f : UserFunction β} :
    I (f :: calls) s → I calls { s with env := s.env.pop.exit }

/-- From states with the property, all moments have it, and so has the end. Calls are well nested.
If it ends well, `P` holds of the result. -/
def Keeps (I : List (UserFunction β) → State β → Prop) (P : α → Prop) (x : Watched β α) : Prop :=
  ∀ o calls s, I calls s → (∀ m ∈ (x o calls s).1, I m.calls m.state ∧ m.WellNested) ∧
    ∀ r t, (x o calls s).2 = some (r, t) → I calls t ∧ ∀ a, r = .ok a → P a

namespace Keeps
variable {I : List (UserFunction β) → State β → Prop} {P : α → Prop} {Q : γ → Prop}
  {x : Watched β α}

theorem pure {a : α} (h : P a) : Keeps I P (Pure.pure a : Watched β α) := by
  intro o calls s hs
  refine ⟨by simp [Pure.pure], ?_⟩
  rintro _ _ ⟨⟩
  exact ⟨hs, fun b hb => Except.ok.inj hb ▸ h⟩

theorem bind {f : α → Watched β γ} (hx : Keeps I P x) (hf : ∀ a, P a → Keeps I Q (f a)) :
    Keeps I Q (x >>= f) := by
  intro o calls s hs
  obtain ⟨hseen, hend⟩ := hx o calls s hs
  simp only [Bind.bind]
  rcases hr : x o calls s with ⟨seen, _ | ⟨e | a, t⟩⟩ <;> rw [hr] at hseen hend
  · exact ⟨hseen, by simp⟩
  · refine ⟨hseen, ?_⟩
    rintro _ _ ⟨⟩
    exact ⟨(hend _ t rfl).1, by simp⟩
  · obtain ⟨ht, ha⟩ := hend _ t rfl
    obtain ⟨hlater, hlast⟩ := hf a (ha a rfl) o calls t ht
    exact ⟨List.forall_mem_append.mpr ⟨hseen, hlater⟩, hlast⟩

theorem noting {event : Event β} (he : ∀ f, event ≠ .leave f) {y : Evaluation β α}
    (h : ∀ o calls s, I calls s → ∀ r t, y o s = some (r, t) → I calls t ∧ ∀ a, r = .ok a → P a) :
    Keeps I P (Watched.noting event y) := by
  intro o calls s hs
  refine ⟨?_, h o calls s hs⟩
  simp only [Watched.noting, List.forall_mem_singleton]
  exact ⟨hs, fun f hf => absurd hf (he f)⟩

theorem inForm (form : List Token) (hx : Keeps I P x) : Keeps I P (Machine.inForm form x) := by
  intro o calls s hs
  obtain ⟨hseen, hend⟩ := hx o calls s hs
  refine ⟨?_, ?_⟩
  · exact List.forall_mem_cons.mpr ⟨⟨hs, nofun⟩, hseen⟩
  · intro r t hr
    obtain ⟨q, hq, hok⟩ := located_eq_some hr
    obtain ⟨ht, hP⟩ := hend q t hq
    exact ⟨ht, fun a ha => hP a (hok a ha)⟩

theorem duringCall (k : Invariant I) (f : UserFunction β) (hx : Keeps I P x) {o : Options}
    {calls : List (UserFunction β)} {s : State β} (hs : I calls s) :
    ∀ m ∈ Watched.duringCall f x o calls s, I m.calls m.state ∧ m.WellNested := by
  simp only [Watched.duringCall]
  cases he : s.env.enter with
  | error g => simp
  | ok e =>
    obtain ⟨hseen, hend⟩ := hx o (f :: calls) _ (k.enter f o.callScope hs he)
    simp only
    generalize x o (f :: calls) _ = p at hseen hend
    match p with
    | (_, none) => exact hseen
    | (_, some (r, t)) =>
      have ht : I (f :: calls) t := (hend r t rfl).1
      have hleave : (⟨.leave f, f :: calls, t⟩ : Moment β).WellNested := by
        rintro g ⟨⟩
        rfl
      simpa only [List.forall_mem_append, List.forall_mem_singleton] using ⟨hseen, ht, hleave⟩

theorem inCall (k : Invariant I) (f : UserFunction β) (hx : Keeps I P x) :
    Keeps I P (Machine.inCall f x) := by
  intro o calls s hs
  refine ⟨?_, ?_⟩
  · exact List.forall_mem_cons.mpr ⟨⟨hs, nofun⟩, hx.duringCall k f hs⟩
  · intro r t hr
    obtain ⟨g, -, rfl, rfl⟩ | ⟨e, u, he, hu, rfl⟩ := called_eq_some hr
    · exact ⟨hs, by simp⟩
    · obtain ⟨ht, hP⟩ := (hx o (f :: calls) _ (k.enter f o.callScope hs he)).2 r u hu
      exact ⟨k.leave ht, hP⟩

end Keeps

variable {I : List (UserFunction (List Token)) → State (List Token) → Prop}

/-- A coupling in which only the first one of two watched evaluations is looked at. -/
def keeping (k : Invariant I) : Coupling .full (Watched (List Token)) (Watched (List Token)) where
  Stored := Eq
  Rel A x _ := Keeps I (fun a => ∃ b, A a b) x
  pure h := .pure ⟨_, h⟩
  bind hx hf := hx.bind fun a ⟨b, hb⟩ => hf a b hb
  fail f := .noting (by simp) <| by
    rintro o calls s hs _ _ ⟨⟩
    exact ⟨hs, by simp⟩
  inForm form h := h.inForm form
  lookup _ := .noting (by simp) <| by
    rintro o calls s hs _ _ ⟨⟩
    exact ⟨hs, fun _ _ => ⟨_, rfl, fun _ _ => trivial⟩⟩
  assign _ _ := .noting (by simp) <| by
    rintro o calls s hs _ _ ⟨⟩
    exact ⟨k.assign _ _ hs, fun _ _ => ⟨⟨⟩, rfl⟩⟩
  function? _ := .noting (by simp) <| by
    rintro o calls s hs _ _ ⟨⟩
    exact ⟨hs, fun _ _ => ⟨_, optionRel_eq _⟩⟩
  define _ := .noting (by simp) <| by
    rintro o calls s hs _ _ ⟨⟩
    exact ⟨k.define _ hs, fun _ _ => ⟨⟨⟩, rfl⟩⟩
  print _ := .noting (by simp) <| by
    rintro o calls s hs _ _ ⟨⟩
    exact ⟨k.print _ hs, fun _ _ => ⟨⟨⟩, rfl⟩⟩

theorem keeping_uniform (k : Invariant I) : (keeping k).Uniform (fun _ => True) 0 := by
  apply Coupling.Uniform.of_full
  · exact fun _ _ => Iff.rfl
  · intro y hy o calls s hs
    exact ⟨by simp [exhausted], by simp [exhausted]⟩
  · intro n
    refine .noting (by simp) ?_
    intro o calls s hs r t hr
    obtain rfl := state_of_guardRound hr
    exact ⟨hs, fun a _ => ⟨a, rfl⟩⟩
  · exact fun f x y h => h.inCall k f

/-- What holds at first and is kept by the effects holds in all moments. -/
theorem Invariant.of_mem_ofRequest (k : Invariant I) {request : Request} {steps : Nat}
    {o : Options} {calls : List (UserFunction (List Token))} {s : State (List Token)}
    (hs : I calls s) {m : Moment (List Token)}
    (hm : m ∈ (Watched.ofRequest request steps o calls s).1) :
    I m.calls m.state ∧ m.WellNested :=
  (request.rel_eval (keeping_uniform k) (fun _ => rfl) steps o calls s hs).1 m hm

theorem Invariant.of_mem_ofProgram (k : Invariant I) {tokens : List Token} {steps : Nat}
    {o : Options} {calls : List (UserFunction (List Token))} {s : State (List Token)}
    (hs : I calls s) {m : Moment (List Token)}
    (hm : m ∈ (Watched.ofProgram tokens steps o calls s).1) : I m.calls m.state :=
  (@of_mem_ofRequest _ k (.program tokens) steps o calls s hs m hm).1

end FlatLisp
