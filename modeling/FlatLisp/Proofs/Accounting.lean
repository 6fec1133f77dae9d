import FlatLisp.Proofs.Call
import FlatLisp.Proofs.Session
import FlatLisp.Proofs.Watch

/-! What is counted while calls are active. Every call that is active has one scope and one unit of
the depth, from before its parameters are bound until its body is over. So the calls that fit are as
many as the limit leaves, and a scope is never dropped that is not there. -/
namespace FlatLisp
open Machine Eval Nesting Evaluation

variable {β α γ : Type}

/-- The environment is one within `active` calls, none of which was active in the first one. -/
structure Counted (first : Environment β) (active : Nat) (env : Environment β) : Prop where
  depth : env.depth = first.depth + active
  scopeDepth : env.scopeDepth = first.scopeDepth + active
  recursionLimit : env.recursionLimit = first.recursionLimit
  within : env.depth ≤ env.recursionLimit

namespace Counted
variable {first env : Environment β} {active : Nat}

theorem refl (h : env.depth ≤ env.recursionLimit) : Counted env 0 env := ⟨rfl, rfl, rfl, h⟩

theorem assign (h : Counted first active env) (name : String) (v : Value) :
    Counted first active (env.assign name v) := by
  have hlength := env.length_scopes_assign name v
  rw [env.assign_eq name v]
  exact { h with scopeDepth := hlength.trans h.scopeDepth }

theorem enter {entered : Environment β} (h : Counted first active env)
    (he : env.enter = .ok entered) (rule : CallScope) :
    Counted first (active + 1) (entered.pushCall rule) := by
  obtain ⟨hlt, rfl⟩ := Environment.enter_eq_ok_iff.mp he
  obtain ⟨a, ha⟩ := Environment.pushCall_eq { env with depth := env.depth + 1 } rule
  rw [ha]
  exact {
    depth := congrArg (· + 1) h.depth
    scopeDepth := congrArg (· + 1) h.scopeDepth
    recursionLimit := h.recursionLimit
    within := hlt }

theorem scopes_ne_nil (h : Counted first (active + 1) env) : env.scopes ≠ [] := by
  intro he
  have hlength := h.scopeDepth
  simp only [Environment.scopeDepth, he, List.length_nil] at hlength
  omega

theorem depth_ne_zero (h : Counted first (active + 1) env) : env.depth ≠ 0 := by
  have hdepth := h.depth
  omega

theorem leave (h : Counted first (active + 1) env) : Counted first active env.pop.exit := by
  have hdepth := h.depth
  have hscopes := h.scopeDepth
  have hwithin := h.within
  refine { depth := ?_, scopeDepth := ?_, recursionLimit := h.recursionLimit, within := ?_ }
  · simp only [Environment.exit, Environment.pop]
    omega
  · simp only [Environment.scopeDepth] at hscopes
    simp only [Environment.scopeDepth, Environment.exit, Environment.pop, List.length_tail]
    omega
  · simp only [Environment.exit, Environment.pop]
    omega

theorem isFull_iff (h : Counted first active env) :
    env.recursionLimit ≤ env.depth ↔ active = first.recursionLimit - first.depth := by
  have hdepth := h.depth
  have hlimit := h.recursionLimit
  have hwithin := h.within
  omega

end Counted

theorem invariant_counted (first : Environment β) :
    Invariant fun calls (s : State β) => Counted first calls.length s.env where
  assign name v h := h.assign name v
  define _ h := { h with }
  print _ h := h
  enter _ rule h he := h.enter he rule
  leave h := h.leave

namespace Evaluation

/-- The evaluation does not end in a recursion limit that no form has been named for, which is what
a call ends in that is refused. -/
def Admits (x : Evaluation β α) : Prop :=
  ∀ o s n t, x o s ≠ some (.error (.bare (.recursionLimit n)), t)

namespace Admits
variable {x : Evaluation β α}

theorem pure (a : α) : Admits (Pure.pure a : Evaluation β α) := by
  rintro o s n t ⟨⟩

theorem fail {f : Fault} (hf : ∀ n, f ≠ .recursionLimit n) :
    Admits (Machine.fail f : Evaluation β α) := by
  rintro o s n t ⟨⟩
  exact hf n rfl

theorem bind {f : α → Evaluation β γ} (hx : Admits x) (hf : ∀ a, Admits (f a)) :
    Admits (x >>= f) := by
  intro o s n t h
  obtain ⟨e, he, hr⟩ | ⟨a, u, -, hu⟩ := bind_eq_some h
  · obtain rfl := Except.error.inj hr
    exact hx o s n t he
  · exact hf a o u n t hu

/-- An error that leaves a form names one. -/
theorem inForm (form : List Token) (x : Evaluation β α) : Admits (Machine.inForm form x) := by
  intro o s n t h
  obtain ⟨⟨q, u⟩, -, he⟩ := Option.map_eq_some_iff.mp ((located_eq_map form x o s).symm.trans h)
  cases q with
  | ok a => cases he
  | error e =>
    obtain ⟨he, -⟩ : e.locate form = .bare (.recursionLimit n) ∧ u = t := by
      simpa [Except.mapError] using he
    exact e.context_locate_ne_nil form (congrArg Error.context he)

theorem bindParameters (names : List String) (args : List Value) :
    Admits (Eval.bindParameters names args : Evaluation β Unit) := by
  induction names generalizing args with
  | nil => exact .pure ()
  | cons name names ih =>
    cases args with
    | nil => exact .pure ()
    | cons v vs => exact .bind (by rintro o s n t ⟨⟩) fun _ => ih vs

variable (steps : Nat)

theorem evalForm (form : List Token) :
    Admits (FlatLisp.evalForm steps form : Evaluation (List Token) Value) := by
  cases steps with
  | zero => rintro o s n t ⟨⟩
  | succ steps => exact .inForm form _

theorem evalAtom (t : Token) : Admits (Eval.evalAtom t : Evaluation β Value) := by
  simp only [Eval.evalAtom]
  cases t.kind with
  | number =>
    simp only [integerLiteral]
    cases Integer.read? t.text with
    | some n => exact .pure _
    | none => exact .fail (by simp)
  | symbol => exact .bind (by rintro o s n t ⟨⟩) fun _ => .pure _
  | opening => exact .fail (by simp)
  | closing => exact .fail (by simp)

theorem evalOperand (x : List Token) :
    Admits (Eval.evalOperand (FlatLisp.evalForm steps) x : Evaluation (List Token) Value) := by
  match x with
  | [] => exact .fail (by simp)
  | [t] => exact .evalAtom t
  | t :: u :: ts =>
    simp only [Eval.evalOperand]
    split
    · exact .evalForm steps _
    · exact .fail (by simp)

theorem evalSequence (last : Value) (xs : List (List Token)) :
    Admits (Eval.evalSequence (FlatLisp.evalForm steps) last xs :
      Evaluation (List Token) Value) := by
  induction xs generalizing last with
  | nil => exact .pure last
  | cons x xs ih => exact .bind (.evalOperand steps x) fun v => ih v

end Admits
end Evaluation

/-- Once its arguments are accepted, a call is refused if and only if the depth has come to the
limit. It then fails without a change to anything, and before a form is named for it. -/
theorem ofInvoke_refused_iff {f : UserFunction (List Token)} {args : List Value}
    {body : List (List Token)} (ha : args.length = f.parameters.length)
    (hb : splitOperands f.body = .ok body) (steps n : Nat) (o : Options)
    (s t : State (List Token)) :
    ofInvoke f args steps o s = some (.error (.bare (.recursionLimit n)), t) ↔
      s.env.recursionLimit ≤ s.env.depth ∧ n = s.env.recursionLimit ∧ t = s := by
  have hcall : ofInvoke f args steps = called (do
      bindParameters f.parameters args
      evalSequence (evalForm steps) .empty body) := by
    simp only [ofInvoke, invoke, ha, if_true, hb, Machine.ofExcept, pure_bind]
    rfl
  rw [hcall]
  constructor
  · intro h
    obtain ⟨g, hg, hr, rfl⟩ | ⟨e, u, -, hu, -⟩ := called_eq_some h
    · obtain ⟨hfull, rfl⟩ := Environment.enter_eq_error_iff.mp hg
      obtain rfl : n = t.env.recursionLimit := by simpa [Error.bare] using hr
      exact ⟨hfull, rfl, rfl⟩
    · have hbody : Admits (do
          bindParameters f.parameters args
          evalSequence (evalForm steps) .empty body : Evaluation (List Token) Value) :=
        .bind (.bindParameters _ _) fun _ => .evalSequence steps _ _
      exact absurd hu (hbody o _ n u)
  · rintro ⟨hfull, rfl, rfl⟩
    simp only [called, Environment.enter_eq_error_iff.mpr ⟨hfull, rfl⟩]

/-- What is right about the counts at a moment of an evaluation with these options that started in
an environment. -/
structure Moment.Accounted (o : Options) (first : Environment (List Token))
    (m : Moment (List Token)) : Prop where
  counted : Counted first m.calls.length m.state.env
  refused {f : UserFunction (List Token)} {args : List Value} {body : List (List Token)} :
    m.event = .call f → args.length = f.parameters.length → splitOperands f.body = .ok body →
      ∀ steps n t, ofInvoke f args steps o m.state =
          some (.error (.bare (.recursionLimit n)), t) ↔
        m.calls.length = first.recursionLimit - first.depth ∧ n = first.recursionLimit ∧
          t = m.state
  dropped {f : UserFunction (List Token)} :
    m.event = .leave f → m.state.env.scopes ≠ [] ∧ m.state.env.depth ≠ 0

theorem Moment.Accounted.of_counted {o : Options} {first : Environment (List Token)}
    {m : Moment (List Token)} (h : Counted first m.calls.length m.state.env)
    (hw : m.WellNested) : m.Accounted o first where
  counted := h
  refused _ ha hb steps n t := by
    rw [ofInvoke_refused_iff ha hb, h.isFull_iff, h.recursionLimit]
  dropped {f} hf := by
    obtain ⟨outer, hcalls⟩ := List.head?_eq_some_iff.mp (hw f hf)
    rw [hcalls] at h
    exact ⟨h.scopes_ne_nil, h.depth_ne_zero⟩

theorem accounted_of_mem_ofRequest {request : Request} {steps : Nat} {o : Options}
    {s : State (List Token)} (hs : s.env.depth ≤ s.env.recursionLimit)
    {m : Moment (List Token)}
    (hm : m ∈ (Watched.ofRequest request steps o [] s).1) :
    m.Accounted o s.env := by
  have hfirst : Counted s.env ([] : List (UserFunction (List Token))).length s.env := .refl hs
  obtain ⟨hcounted, hnested⟩ := (invariant_counted s.env).of_mem_ofRequest hfirst hm
  exact .of_counted hcounted hnested

namespace Session

/-- An execution that keeps a record. -/
def watch (steps : Nat) (s : Session) (source : String) :
    List (Moment (List Token)) × Option (Execution × Session) :=
  match Lexer.tokenize s.config.comments source with
  | .error f => ([], some (⟨#[], .error (.bare f)⟩, s))
  | .ok tokens =>
    let (seen, last) := Watched.ofProgram tokens steps s.config.options [] { env := s.env }
    (seen, last.map fun (outcome, t) => (⟨t.output, outcome⟩, { s with env := t.env }))

theorem snd_watch (steps : Nat) (s : Session) (source : String) :
    (s.watch steps source).2 = s.execute steps source := by
  cases ht : Lexer.tokenize s.config.comments source with
  | error f => simp only [watch, execute, ht]
  | ok tokens =>
    have hrun := congrFun (congrFun (unwatched_ofProgram tokens steps []) s.config.options)
      { env := s.env }
    rw [execute_of_tokenize ht, ← hrun]
    simp only [watch, ht, Watched.unwatched]

theorem AtRest.accounted_of_mem_watch {steps : Nat} {s : Session} {source : String}
    (h : s.AtRest) {m : Moment (List Token)} (hm : m ∈ (s.watch steps source).1) :
    m.Accounted s.config.options s.env := by
  have hfirst : s.env.depth ≤ s.env.recursionLimit := by
    rw [h.depth]
    exact Nat.zero_le _
  simp only [watch] at hm
  split at hm
  · cases hm
  · rename_i tokens _
    exact @accounted_of_mem_ofRequest (.program tokens) steps _ _ hfirst m hm

end Session

/-- Whatever is evaluated, with however many steps, in an environment whose depth is within the
limit: at every moment the depth and the number of scopes have grown by the number of active calls
and the limit still holds; of the calls that have been accepted, those are refused that the limit
leaves no room for, and they change nothing; and when a call ends, its scope is there to be dropped
and the depth can be counted down. In a session, the two counts are both zero between executions,
and equal and within the limit at every moment of an execution. -/
theorem accounted_throughout :
    (∀ (request : Request) (steps : Nat) (o : Options) (s : State (List Token)),
      s.env.depth ≤ s.env.recursionLimit →
      (Watched.ofRequest request steps o [] s).2 = Evaluation.ofRequest request steps o s ∧
      ∀ m ∈ (Watched.ofRequest request steps o [] s).1, m.Accounted o s.env) ∧
    ∀ s : Session, s.Reachable → s.env.scopeDepth = 0 ∧ s.env.depth = 0 ∧
      ∀ steps source, (s.watch steps source).2 = s.execute steps source ∧
        ∀ m ∈ (s.watch steps source).1, m.Accounted s.config.options s.env ∧
          m.state.env.scopeDepth = m.state.env.depth ∧
          m.state.env.depth ≤ s.config.recursionLimit := by
  refine ⟨?_, ?_⟩
  · intro request steps o s hs
    refine ⟨congrFun (congrFun (unwatched_ofRequest request steps []) o) s, ?_⟩
    intro m hm
    exact accounted_of_mem_ofRequest hs hm
  · intro s hs
    have hrest := hs.atRest
    have hscopes : s.env.scopeDepth = 0 := List.length_eq_zero_iff.mpr hrest.scopes
    refine ⟨hscopes, hrest.depth, ?_⟩
    intro steps source
    refine ⟨s.snd_watch steps source, ?_⟩
    intro m hm
    have haccounted := hrest.accounted_of_mem_watch hm
    have hdepth := haccounted.counted.depth
    have hscopeDepth := haccounted.counted.scopeDepth
    have hlimit := haccounted.counted.recursionLimit
    have hwithin := haccounted.counted.within
    rw [hrest.depth] at hdepth
    rw [hscopes] at hscopeDepth
    rw [hrest.recursionLimit] at hlimit
    exact ⟨haccounted, by omega, by omega⟩

/-- A function that calls itself without end. -/
def endless : UserFunction (List Token) := ⟨"f", ["n"], Lexer.cut "(f (+ n 1))".toList⟩

/-- Its definition, and a first call. -/
def endlessly : String := "(defun f (n) (f (+ n 1))) (f 0)"

def endlessRequest : Request := .program (Lexer.cut endlessly.toList)

/-- The state within a call, with room for two more. -/
def nearLimit : State (List Token) := ⟨⟨{}, [{}], ∅, 1, 3⟩, #[]⟩

theorem accounted_nearLimit :
    (∃ m ∈ (Watched.ofRequest endlessRequest 20 {} [] nearLimit).1,
      m.event = .call endless ∧ m.calls.length = 2 ∧ m.state.env.depth = 3 ∧
      m.state.env.scopeDepth = 3 ∧ ofInvoke endless [.integer 2] 10 {} m.state =
        some (.error (.bare (.recursionLimit 3)), m.state)) ∧
    (∃ m ∈ (Watched.ofRequest endlessRequest 20 {} [] nearLimit).1,
      m.event = .leave endless ∧ m.state.env.scopes ≠ [] ∧ m.state.env.depth ≠ 0) ∧
    ∃ m ∈ ((Session.start { recursionLimit := 2 }).watch 20 endlessly).1,
      m.calls = [endless, endless] ∧ m.state.env.scopeDepth = 2 ∧ m.state.env.depth = 2 := by
  have hcall : ((Watched.ofRequest endlessRequest 20 {} [] nearLimit).1.any fun m =>
        match m.event with
        | .call f => f = endless ∧ m.calls.length = 2
        | _ => false) = true := by
    decide +kernel
  have hleave : ((Watched.ofRequest endlessRequest 20 {} [] nearLimit).1.any fun m =>
        match m.event with
        | .leave f => f = endless
        | _ => false) = true := by
    decide +kernel
  have hwatch : (((Session.start { recursionLimit := 2 }).watch 20 endlessly).1.any fun m =>
      m.calls = [endless, endless]) = true := by
    decide +kernel
  have hbody : splitOperands endless.body = .ok [endless.body] := by
    decide +kernel
  have hargs : [Value.integer 2].length = endless.parameters.length := rfl
  have hrecord := (accounted_throughout.1 endlessRequest 20 {} nearLimit (by decide)).2
  refine ⟨?_, ?_, ?_⟩
  · obtain ⟨m, hm, he⟩ := List.any_eq_true.mp hcall
    split at he
    · rename_i f hf
      obtain ⟨rfl, hl⟩ : f = endless ∧ m.calls.length = 2 := by simpa using he
      have haccounted := hrecord m hm
      have hrefused := haccounted.refused hf hargs hbody 10 3 m.state
      have hdepth := haccounted.counted.depth
      have hscopes := haccounted.counted.scopeDepth
      rw [hl] at hdepth hscopes
      exact ⟨m, hm, hf, hl, hdepth, hscopes, hrefused.mpr ⟨hl, rfl, rfl⟩⟩
    · cases he
  · obtain ⟨m, hm, he⟩ := List.any_eq_true.mp hleave
    split at he
    · rename_i f hf
      obtain rfl : f = endless := by simpa using he
      exact ⟨m, hm, hf, (hrecord m hm).dropped hf⟩
    · cases he
  · obtain ⟨m, hm, he⟩ := List.any_eq_true.mp hwatch
    have hcalls : m.calls = [endless, endless] := by simpa using he
    have hsession := accounted_throughout.2 _ (.start { recursionLimit := 2 })
    obtain ⟨-, -, hexecutions⟩ := hsession
    obtain ⟨haccounted, -, -⟩ := (hexecutions 20 endlessly).2 m hm
    have hdepth := haccounted.counted.depth
    have hscopes := haccounted.counted.scopeDepth
    rw [hcalls] at hdepth hscopes
    exact ⟨m, hm, hcalls, hscopes, hdepth⟩

end FlatLisp
