import FlatLisp.Proofs.Ending
import FlatLisp.Proofs.Environment

/-! With a bound on the rounds of its loops every evaluation ends. A form needs steps for the
operands in it, which are shorter, for the rounds of its loops, and for the bodies of the calls
that the recursion limit still admits, which may be longer. -/
namespace FlatLisp
open Machine Eval Nesting Evaluation

/-- No body of a stored function has more tokens than `size`. -/
def Environment.BodiesWithin (env : Environment (List Token)) (size : Nat) : Prop :=
  ∀ name f, env.function? name = some f → f.body.length ≤ size

theorem Environment.exists_bodiesWithin (env : Environment (List Token)) (least : Nat) :
    ∃ size, least ≤ size ∧ env.BodiesWithin size := by
  let lengths := least :: env.functions.toList.map (·.2.body.length)
  refine ⟨lengths.max (List.cons_ne_nil _ _), List.le_max_of_mem (by simp [lengths]), ?_⟩
  intro name f hf
  have hmem : (name, f) ∈ env.functions.toList :=
    Std.ExtTreeMap.mem_toList_iff_getElem?_eq_some.mpr hf
  have hlength : f.body.length ∈ lengths := by
    refine List.mem_cons_of_mem _ (List.mem_map.mpr ⟨_, hmem, rfl⟩)
  exact List.le_max_of_mem hlength

/-- The state of an evaluation at a certain depth of calls. -/
structure AtDepth (limit size depth : Nat) (s : State (List Token)) : Prop where
  depth_eq : s.env.depth = depth
  limit_eq : s.env.recursionLimit = limit
  bodies : s.env.BodiesWithin size

namespace AtDepth
variable {limit size depth : Nat} {s : State (List Token)}

theorem enter (hs : AtDepth limit size depth s) {e : Environment (List Token)}
    (he : s.env.enter = .ok e) (rule : CallScope) :
    depth < limit ∧ AtDepth limit size (depth + 1) { s with env := e.pushCall rule } := by
  obtain ⟨hd, rfl⟩ := Environment.enter_eq_ok_iff.mp he
  obtain ⟨a, ha⟩ := Environment.pushCall_eq { s.env with depth := s.env.depth + 1 } rule
  rw [hs.depth_eq, hs.limit_eq] at hd
  rw [ha]
  exact ⟨hd, congrArg (· + 1) hs.depth_eq, hs.limit_eq, hs.bodies⟩

theorem exit (hs : AtDepth limit size (depth + 1) s) :
    AtDepth limit size depth { s with env := s.env.pop.exit } :=
  ⟨congrArg (· - 1) hs.depth_eq, hs.limit_eq, hs.bodies⟩

theorem assign (hs : AtDepth limit size depth s) (name : String) (v : Value) :
    AtDepth limit size depth { s with env := s.env.assign name v } := by
  rw [Environment.assign_eq]
  exact ⟨hs.depth_eq, hs.limit_eq, hs.bodies⟩

theorem define (hs : AtDepth limit size depth s) {f : UserFunction (List Token)}
    (hf : f.body.length ≤ size) :
    AtDepth limit size depth { s with env := s.env.define f } := by
  refine ⟨hs.depth_eq, hs.limit_eq, fun name g hg => ?_⟩
  rw [Environment.function?_define] at hg
  split at hg
  · exact Option.some.inj hg ▸ hf
  · exact hs.bodies name g hg

end AtDepth

/-- From every state at the depth the evaluation comes to an end, at that depth again, and if it
ends well, `P` holds of the result. -/
def Settles (o : Options) (limit size depth : Nat) {α : Type} (P : α → Prop)
    (x : Evaluation (List Token) α) : Prop :=
  ∀ s, AtDepth limit size depth s →
    ∃ r t, x o s = some (r, t) ∧ AtDepth limit size depth t ∧ ∀ a, r = .ok a → P a

namespace Settles
variable {o : Options} {limit size depth : Nat} {α γ : Type} {P : α → Prop} {Q : γ → Prop}
  {x : Evaluation (List Token) α}

theorem of_step (h : ∀ s, AtDepth limit size depth s →
    ∃ a t, x o s = some (.ok a, t) ∧ AtDepth limit size depth t ∧ P a) :
    Settles o limit size depth P x := by
  intro s hs
  obtain ⟨a, t, hx, ht, ha⟩ := h s hs
  exact ⟨_, t, hx, ht, fun b hb => Except.ok.inj hb ▸ ha⟩

theorem fail (f : Fault) :
    Settles o limit size depth P (Machine.fail f : Evaluation (List Token) α) :=
  fun s hs => ⟨_, s, rfl, hs, by simp⟩

theorem bind {f : α → Evaluation (List Token) γ} (hx : Settles o limit size depth P x)
    (hf : ∀ a, P a → Settles o limit size depth Q (f a)) :
    Settles o limit size depth Q (x >>= f) := by
  intro s hs
  obtain ⟨r, t, hr, ht, hP⟩ := hx s hs
  cases r with
  | error e => exact ⟨.error e, t, by simp only [Bind.bind, hr], ht, by simp⟩
  | ok a =>
    obtain ⟨q, u, hq, hu, hQ⟩ := hf a (hP a rfl) t ht
    exact ⟨q, u, by simp only [Bind.bind, hr, hq], hu, hQ⟩

theorem located (form : List Token) (hx : Settles o limit size depth P x) :
    Settles o limit size depth P (Evaluation.located form x) := by
  intro s hs
  obtain ⟨r, t, hr, ht, hP⟩ := hx s hs
  cases r with
  | error e => exact ⟨.error (e.locate form), t, by simp only [Evaluation.located, hr], ht, by simp⟩
  | ok a => exact ⟨.ok a, t, by simp only [Evaluation.located, hr], ht, hP⟩

/-- A call goes one deeper and comes back, if it is admitted. -/
theorem called (hx : depth < limit → Settles o limit size (depth + 1) P x) :
    Settles o limit size depth P (Evaluation.called x) := by
  intro s hs
  cases he : s.env.enter with
  | error f => exact ⟨.error (.bare f), s, by simp only [Evaluation.called, he], hs, by simp⟩
  | ok e =>
    obtain ⟨hd, hin⟩ := hs.enter he o.callScope
    obtain ⟨r, t, hr, ht, hP⟩ := hx hd _ hin
    exact ⟨r, _, by simp only [Evaluation.called, he, hr], ht.exit, hP⟩

theorem startRound {budget : Nat} (hb : o.roundLimit = some budget) (rounds : Nat) :
    Settles o limit size depth (fun _ => rounds < budget)
      (Machine.startRound rounds : Evaluation (List Token) Unit) := by
  intro s hs
  simp only [Machine.startRound, Evaluation.guardRound, hb]
  split
  · exact ⟨_, s, rfl, hs, by simp⟩
  · exact ⟨_, s, rfl, hs, fun _ _ => by omega⟩

/-- The steps run out after the rounds do. -/
theorem loop {budget : Nat} (hb : o.roundLimit = some budget)
    {condition body : Evaluation (List Token) Value}
    {P Q : Value → Prop} (hc : Settles o limit size depth Q condition)
    (hbody : Settles o limit size depth P body) {steps rounds : Nat} (hpos : 0 < steps)
    (hsteps : budget < steps + rounds) {last : Value} (hl : P last) :
    Settles o limit size depth P (Eval.loop condition body steps rounds last) := by
  induction steps generalizing rounds last with
  | zero => omega
  | succ steps ih =>
    refine hc.bind fun v _ => ?_
    split
    · refine (startRound hb rounds).bind fun _ hr => hbody.bind fun w hw => ?_
      exact ih (by omega) (by omega) hw
    · exact of_step fun s hs => ⟨_, s, rfl, hs, hl⟩

end Settles

/-- A coupling in which only the first one of two evaluations is looked at. -/
def settling (o : Options) (limit size depth : Nat) :
    Coupling .full (Evaluation (List Token)) (Evaluation (List Token)) where
  Stored f g := f = g ∧ f.body.length ≤ size
  Rel A x _ := Settles o limit size depth (fun a => ∃ b, A a b) x
  pure h := .of_step fun s hs => ⟨_, s, rfl, hs, _, h⟩
  bind hx hf := hx.bind fun a ⟨b, hb⟩ => hf a b hb
  fail f := .fail f
  inForm form h := h.located form
  lookup _ := .of_step fun s hs => ⟨_, s, rfl, hs, _, rfl, fun _ _ => trivial⟩
  assign _ _ := .of_step fun s hs => ⟨_, _, rfl, hs.assign _ _, ⟨⟩, rfl⟩
  function? {name} _ := .of_step fun s hs => by
    refine ⟨s.env.function? name, s, rfl, hs, ?_⟩
    cases hf : s.env.function? name with
    | none => exact ⟨none, .none⟩
    | some f => exact ⟨some f, .some ⟨rfl, hs.bodies name f hf⟩⟩
  define hf := .of_step fun s hs => ⟨_, _, rfl, hs.define hf.2, ⟨⟩, rfl⟩
  print _ := .of_step fun s hs => ⟨_, _, rfl, ⟨hs.depth_eq, hs.limit_eq, hs.bodies⟩, ⟨⟩, rfl⟩

/-- Steps that are enough for a form of the given length at the given depth. -/
def stepsFor (limit size budget depth length : Nat) : Nat :=
  (limit - depth) * (size + 1) + length + budget + 2

theorem stepsFor_shorter {limit size budget depth length shorter steps : Nat}
    (h : stepsFor limit size budget depth length ≤ steps + 1) (hl : shorter < length) :
    stepsFor limit size budget depth shorter ≤ steps := by
  simp only [stepsFor] at *
  omega

theorem stepsFor_body {limit size budget depth length body steps : Nat}
    (h : stepsFor limit size budget depth length ≤ steps + 1) (hd : depth < limit)
    (hb : body ≤ size) : stepsFor limit size budget (depth + 1) body ≤ steps := by
  simp only [stepsFor] at *
  have he : (limit - depth) * (size + 1) = (limit - (depth + 1)) * (size + 1) + (size + 1) := by
    rw [show limit - depth = limit - (depth + 1) + 1 by omega, Nat.succ_mul]
  omega

/-- By induction on the steps, with fewer of them for whatever is evaluated within the form. -/
theorem settles_evalForm {o : Options} {limit size budget : Nat} (hb : o.roundLimit = some budget)
    {steps depth : Nat} {form : List Token} (hl : form.length ≤ size)
    (hsteps : stepsFor limit size budget depth form.length ≤ steps) :
    (settling o limit size depth).Rel (Same fun _ => True) (evalForm steps form)
      (evalForm steps form) := by
  induction steps generalizing depth form with
  | zero => simp [stepsFor] at hsteps
  | succ steps ih =>
    refine (settling o limit size depth).inForm form (Coupling.Fits.rel_dispatch {
      spells := Vocabulary.full_spells form
      self := ?_
      loops := ?_
      calls := ?_
      define := ?_ })
    · intro xs hr x hx
      have hlt := hr.length_lt_of_mem hx
      exact ih (by omega) (stepsFor_shorter hsteps hlt)
    · intro condition _ body _ hc hbody
      have : budget < steps := by
        simp only [stepsFor] at hsteps
        omega
      exact hc.loop hb hbody (by omega) (by omega) ⟨_, rfl, trivial⟩
    · intro f g args hf ha
      obtain ⟨rfl, hsize⟩ := hf
      refine Coupling.rel_invoke fun body hs => Settles.called fun hd => ?_
      have hbody : (settling o limit size (depth + 1)).Operands (evalForm steps)
          (evalForm steps) body := by
        intro x hx
        have hle := (isInfix_flatten_of_mem hx).length_le
        rw [flatten_of_splitOperands hs] at hle
        refine ⟨Vocabulary.full_spells x, Coupling.rel_evalOperand (Vocabulary.full_spells x) ?_⟩
        exact ih (by omega) (stepsFor_body hsteps hd (by omega))
      exact Coupling.rel_callBody (fun _ _ => trivial) ha hbody
    · intro xs f hr hd
      obtain ⟨target, parameterList, body, rfl, -, -, -, -, -, hf⟩ := hd
      refine ⟨rfl, ?_⟩
      have hle := hr.length_flatten
      simp only [List.flatten_cons, List.length_append, ← hf] at hle
      omega

/-- From every state, and whatever functions are stored or get stored, a program whose loops are
bounded ends, and so do tokens that should be one form. -/
theorem exists_endsIn (tokens : List Token) (rule : CallScope) (budget : Nat)
    (s : State (List Token)) :
    (∃ r, EndsIn (ofProgram tokens) ⟨rule, some budget⟩ s r) ∧
      ∃ r, EndsIn (ofForm tokens) ⟨rule, some budget⟩ s r := by
  obtain ⟨size, hsize, hbodies⟩ := s.env.exists_bodiesWithin tokens.length
  let steps := stepsFor s.env.recursionLimit size budget s.env.depth size
  have hform : ∀ x, x <:+: tokens →
      (settling ⟨rule, some budget⟩ s.env.recursionLimit size s.env.depth).Rel
        (Same fun _ => True) (evalForm steps x) (evalForm steps x) := by
    intro x hx
    have hx := hx.length_le
    refine settles_evalForm rfl (by omega) ?_
    simp only [steps, stepsFor]
    omega
  constructor
  · obtain ⟨r, t, hr, -⟩ := Coupling.rel_evaluateProgram hform s ⟨rfl, rfl, hbodies⟩
    exact ⟨_, endsIn_ofProgram_iff.mpr ⟨steps, hr⟩⟩
  · obtain ⟨r, t, hr, -⟩ := Coupling.rel_evaluate (hform tokens (List.infix_refl _)) s
      ⟨rfl, rfl, hbodies⟩
    exact ⟨_, endsIn_ofForm_iff.mpr ⟨steps, hr⟩⟩

end FlatLisp
