import FlatLisp.Proofs.Rules
import FlatLisp.Proofs.Termination

/-! The limit on the rounds of a loop. A loop goes the way of its plain unrolling until the limit
refuses a round, and how many rounds other loops have gone through has no say in it. -/
namespace FlatLisp
open Machine Eval Nesting Evaluation

/-- A special form on operands of its own, in which everything has the same number of steps. -/
abbrev Evaluation.ofDirect (form : SpecialForm) (xs : List (List Token)) (steps : Nat) :
    Evaluation (List Token) Value := ofSpecial form xs steps steps

/-- What a `for` does in a round. -/
abbrev Evaluation.ofRound (body update : List Token) (steps : Nat) :
    Evaluation (List Token) Value := forRound (evalForm steps) body update

section Unrolling
variable {β : Type} (condition body : Nat → Evaluation β Value) (o : Options)

/-- The condition is true, and then the body goes through with the value. -/
def GoesRound (s : State β) (v : Value) (t : State β) : Prop :=
  ∃ c u, EndsIn condition o s (.ok c, u) ∧ c.isTruthy ∧ EndsIn body o u (.ok v, t)

/-- The unrolling of a loop, on the rounds of which there is no limit, ends. The number is that of
the conditions that were true. The value is that of the last body, or `last` if there was none. -/
inductive Unrolls : Value → State β → Nat → Except Error Value × State β → Prop
  | stop {last c : Value} {s t : State β} :
      EndsIn condition o s (.ok c, t) → ¬ c.isTruthy → Unrolls last s 0 (.ok last, t)
  | conditionFails {last : Value} {s t : State β} {e : Error} :
      EndsIn condition o s (.error e, t) → Unrolls last s 0 (.error e, t)
  | bodyFails {last c : Value} {s t u : State β} {e : Error} :
      EndsIn condition o s (.ok c, u) → c.isTruthy → EndsIn body o u (.error e, t) →
        Unrolls last s 1 (.error e, t)
  | round {last v : Value} {s u : State β} {n : Nat} {p : Except Error Value × State β} :
      GoesRound condition body o s v u → Unrolls v u n p → Unrolls last s (n + 1) p

/-- The unrolling goes through the number of rounds, and then its condition is true once more. -/
inductive TrueAfter : State β → Nat → State β → Prop
  | now {c : Value} {s t : State β} :
      EndsIn condition o s (.ok c, t) → c.isTruthy → TrueAfter s 0 t
  | round {v : Value} {s t u : State β} {n : Nat} :
      GoesRound condition body o s v u → TrueAfter u n t → TrueAfter s (n + 1) t

/-- From every state the evaluation ends. -/
def Ends {α : Type} (x : Nat → Evaluation β α) : Prop := ∀ s, ∃ p, EndsIn x o s p

variable {condition body o} {s t : State β} {last : Value} {rounds limit k n : Nat}
  {p : Except Error Value × State β}

/-- How an unrolling goes on is settled by where it is. -/
theorem TrueAfter.lt_of_unrolls (h : TrueAfter condition body o s n t)
    (hu : Unrolls condition body o last s k p) : n < k := by
  induction h generalizing last k with
  | now hc htrue =>
    cases hu with
    | stop hc' hfalse =>
      cases hc.unique hc'
      exact absurd htrue hfalse
    | conditionFails hc' => cases hc.unique hc'
    | bodyFails => exact Nat.zero_lt_one
    | round => exact Nat.succ_pos _
  | round hround _ ih =>
    obtain ⟨c, u, hc, htrue, hbody⟩ := hround
    cases hu with
    | stop hc' hfalse =>
      cases hc.unique hc'
      exact absurd htrue hfalse
    | conditionFails hc' => cases hc.unique hc'
    | bodyFails hc' _ hbody' =>
      cases hc.unique hc'
      cases hbody.unique hbody'
    | round hround' hrest =>
      obtain ⟨c', u', hc', -, hbody'⟩ := hround'
      cases hc.unique hc'
      cases hbody.unique hbody'
      exact Nat.succ_lt_succ (ih hrest)

/-- Where there is a limit, the unrolling ends before it or comes to it. -/
theorem unrolls_or_trueAfter (hc : Ends o condition) (hb : Ends o body) (limit : Nat)
    (last : Value) (s : State β) :
    (∃ k p, Unrolls condition body o last s k p ∧ k ≤ limit) ∨
      ∃ t, TrueAfter condition body o s limit t := by
  induction limit generalizing last s with
  | zero =>
    obtain ⟨⟨_ | c, t⟩, hend⟩ := hc s
    · exact .inl ⟨0, _, .conditionFails hend, Nat.le_refl 0⟩
    · by_cases htrue : c.isTruthy
      · exact .inr ⟨t, .now hend htrue⟩
      · exact .inl ⟨0, _, .stop hend htrue, Nat.le_refl 0⟩
  | succ limit ih =>
    obtain ⟨⟨_ | c, u⟩, hend⟩ := hc s
    · exact .inl ⟨0, _, .conditionFails hend, Nat.zero_le _⟩
    · by_cases htrue : c.isTruthy
      · obtain ⟨⟨e | v, t⟩, hbody⟩ := hb u
        · exact .inl ⟨1, _, .bodyFails hend htrue hbody, by omega⟩
        · have hround : GoesRound condition body o s v t := ⟨c, u, hend, htrue, hbody⟩
          obtain ⟨k, p, hp, hk⟩ | ⟨t', ht⟩ := ih v t
          · exact .inl ⟨k + 1, p, .round hround hp, by omega⟩
          · exact .inr ⟨t', .round hround ht⟩
      · exact .inl ⟨0, _, .stop hend htrue, Nat.zero_le _⟩

/-! One turn of a loop, by what its condition comes to. -/
section Turn
variable {condition body : Evaluation β Value} {c : Value} {e : Error} {steps : Nat}

theorem loop_of_error (hc : condition o s = some (.error e, t)) :
    loop condition body (steps + 1) rounds last o s = some (.error e, t) :=
  bind_of_error hc _

theorem loop_of_false (hc : condition o s = some (.ok c, t)) (hfalse : ¬ c.isTruthy) :
    loop condition body (steps + 1) rounds last o s = some (.ok last, t) := by
  rw [loop, bind_of_ok hc, if_neg hfalse]
  rfl

theorem loop_of_refused (ho : o.roundLimit = some limit) (hle : limit ≤ rounds)
    (hc : condition o s = some (.ok c, t)) (htrue : c.isTruthy) :
    loop condition body (steps + 1) rounds last o s =
      some (.error (.bare (.iterationLimit limit)), t) := by
  have hstart : (startRound rounds : Evaluation β Unit) o t =
      some (.error (.bare (.iterationLimit limit)), t) := by
    simp only [startRound, guardRound, ho, if_pos hle]
  rw [loop, bind_of_ok hc, if_pos htrue, bind_of_error hstart]

theorem loop_of_admitted (ho : o.roundLimit = some limit) (hlt : rounds < limit)
    (hc : condition o s = some (.ok c, t)) (htrue : c.isTruthy) :
    loop condition body (steps + 1) rounds last o s =
      (body >>= fun v => loop condition body steps (rounds + 1) v) o t := by
  have hstart : (startRound rounds : Evaluation β Unit) o t = some (.ok (), t) := by
    simp only [startRound, guardRound, ho, if_neg (Nat.not_le.mpr hlt)]
  rw [loop, bind_of_ok hc, if_pos htrue, bind_of_ok hstart]

end Turn

/-- With enough steps for what is in it and for its rounds, the loop ends. Before a round that goes
through there are more of the latter than after it, but not of the former. -/
def LoopEnds (condition body : Nat → Evaluation β Value) (o : Options) (rounds : Nat)
    (last : Value) (s : State β) (p : Except Error Value × State β) : Prop :=
  ∃ n, ∀ inner steps, n ≤ inner → n ≤ steps →
    loop (condition inner) (body inner) (steps + 1) rounds last o s = some p

namespace LoopEnds

theorem of_error {e : Error} (hc : EndsIn condition o s (.error e, t)) :
    LoopEnds condition body o rounds last s (.error e, t) := by
  obtain ⟨n, hn⟩ := hc
  exact ⟨n, fun inner _ hi _ => loop_of_error (hn inner hi)⟩

theorem of_false {c : Value} (hc : EndsIn condition o s (.ok c, t)) (hfalse : ¬ c.isTruthy) :
    LoopEnds condition body o rounds last s (.ok last, t) := by
  obtain ⟨n, hn⟩ := hc
  exact ⟨n, fun inner _ hi _ => loop_of_false (hn inner hi) hfalse⟩

theorem of_refused (ho : o.roundLimit = some limit) {c : Value} (hle : limit ≤ rounds)
    (hc : EndsIn condition o s (.ok c, t)) (htrue : c.isTruthy) :
    LoopEnds condition body o rounds last s (.error (.bare (.iterationLimit limit)), t) := by
  obtain ⟨n, hn⟩ := hc
  exact ⟨n, fun inner _ hi _ => loop_of_refused ho hle (hn inner hi) htrue⟩

theorem of_bodyFails (ho : o.roundLimit = some limit) {c : Value} {u : State β} {e : Error}
    (hlt : rounds < limit) (hc : EndsIn condition o s (.ok c, u)) (htrue : c.isTruthy)
    (hbody : EndsIn body o u (.error e, t)) :
    LoopEnds condition body o rounds last s (.error e, t) := by
  obtain ⟨m, hm⟩ := hc
  obtain ⟨n, hn⟩ := hbody
  refine ⟨max m n, fun inner steps hi _ => ?_⟩
  rw [loop_of_admitted ho hlt (hm inner (by omega)) htrue]
  exact bind_of_error (hn inner (by omega)) _

theorem of_round (ho : o.roundLimit = some limit) {v : Value} {u : State β}
    (hlt : rounds < limit) (hround : GoesRound condition body o s v u)
    (h : LoopEnds condition body o (rounds + 1) v u p) :
    LoopEnds condition body o rounds last s p := by
  obtain ⟨c, t, ⟨l, hc⟩, htrue, ⟨m, hbody⟩⟩ := hround
  obtain ⟨n, hn⟩ := h
  refine ⟨max (max l m) (n + 1), fun inner steps hi hs => ?_⟩
  obtain ⟨steps, rfl⟩ : ∃ i, steps = i + 1 := ⟨steps - 1, by omega⟩
  rw [loop_of_admitted ho hlt (hc inner (by omega)) htrue,
    bind_of_ok (hbody inner (by omega))]
  exact hn inner steps (by omega) (by omega)

/-- A loop that the limit does not stop ends as its unrolling does. -/
theorem of_unrolls (ho : o.roundLimit = some limit) (h : Unrolls condition body o last s k p)
    (hk : rounds + k ≤ limit) : LoopEnds condition body o rounds last s p := by
  induction h generalizing rounds with
  | stop hc hfalse => exact .of_false hc hfalse
  | conditionFails hc => exact .of_error hc
  | bodyFails hc htrue hbody => exact .of_bodyFails ho (by omega) hc htrue hbody
  | round hround _ ih => exact .of_round ho (by omega) hround (ih (by omega))

/-- A loop that comes to the limit fails where the limit refuses a round. -/
theorem of_trueAfter (ho : o.roundLimit = some limit) (h : TrueAfter condition body o s n t)
    (hn : rounds + n = limit) :
    LoopEnds condition body o rounds last s (.error (.bare (.iterationLimit limit)), t) := by
  induction h generalizing rounds last with
  | now hc htrue => exact .of_refused ho (by omega) hc htrue
  | round hround _ ih => exact .of_round ho (by omega) hround (ih (by omega))

theorem endsIn (h : LoopEnds condition body o rounds last s p) :
    EndsIn (fun n => loop (condition n) (body n) n rounds last) o s p := by
  obtain ⟨n, hn⟩ := h
  refine ⟨n + 1, fun steps hle => ?_⟩
  obtain ⟨steps, rfl⟩ : ∃ i, steps = i + 1 := ⟨steps - 1, by omega⟩
  exact hn _ steps (by omega) (by omega)

end LoopEnds
end Unrolling

section Ending
variable {β α γ : Type} {o : Options} {x : Nat → Evaluation β α} {f : Nat → α → Evaluation β γ}

theorem Ends.bind (hx : Ends o x) (hf : ∀ a, Ends o (f · a)) :
    Ends o (fun n => x n >>= f n) := by
  intro s
  obtain ⟨⟨e | a, t⟩, hp⟩ := hx s
  · exact ⟨_, hp.bind_error⟩
  · obtain ⟨q, hq⟩ := hf a t
    exact ⟨q, hp.bind_ok hq⟩

theorem ends_ofOperand (rule : CallScope) (limit : Nat) (x : List Token) :
    Ends ⟨rule, some limit⟩ (ofOperand x) := by
  intro s
  obtain ⟨size, hsize, hbodies⟩ := s.env.exists_bodiesWithin x.length
  have hform : (settling ⟨rule, some limit⟩ s.env.recursionLimit size s.env.depth).Rel
      (Same fun _ => True) (evalForm _ x) (evalForm _ x) :=
    settles_evalForm rfl hsize (Nat.le_refl _)
  obtain ⟨r, t, hr, -⟩ :=
    Coupling.rel_evalOperand (Vocabulary.full_spells x) hform s ⟨rfl, rfl, hbodies⟩
  exact ⟨_, endsIn_ofOperand_iff.mpr ⟨_, hr⟩⟩

theorem ends_evalSequence (rule : CallScope) (limit : Nat) (xs : List (List Token))
    (last : Value) :
    Ends ⟨rule, some limit⟩ (fun n => evalSequence (evalForm n) last xs) := by
  induction xs generalizing last with
  | nil => exact fun s => ⟨(.ok last, s), 0, fun _ _ => rfl⟩
  | cons x xs ih => exact (ends_ofOperand rule limit x).bind ih

theorem ends_ofRound (rule : CallScope) (limit : Nat) (body update : List Token) :
    Ends ⟨rule, some limit⟩ (ofRound body update) :=
  (ends_ofOperand rule limit body).bind fun v => (ends_ofOperand rule limit update).bind fun _ s =>
    ⟨(.ok v, s), 0, fun _ _ => rfl⟩

end Ending

/-- What is said of a loop with a limit. Where the unrolling ends within the limit, the loop ends
just so. Otherwise it fails where the condition is true after as many rounds. -/
structure StopsAt {β : Type} (limit : Nat) (condition body : Nat → Evaluation β Value)
    (o : Options) (s : State β) (ends : Except Error Value × State β → Prop) : Prop where
  within : ∀ k p, Unrolls condition body o (.integer 0) s k p → k ≤ limit → ends p
  beyond : (∀ k p, Unrolls condition body o (.integer 0) s k p → limit < k) →
    ∃ t, TrueAfter condition body o s limit t ∧
      ends (.error (.bare (.iterationLimit limit)), t)

theorem stopsAt_loop {β : Type} {limit : Nat} {condition body : Nat → Evaluation β Value}
    {o : Options} (ho : o.roundLimit = some limit) (hc : Ends o condition) (hb : Ends o body)
    (s : State β) :
    StopsAt limit condition body o s
      (EndsIn (fun n => loop (condition n) (body n) n 0 (.integer 0)) o s) where
  within k p hp hk := (LoopEnds.of_unrolls ho hp (by omega)).endsIn
  beyond hnone := by
    obtain ⟨k, p, hp, hk⟩ | ⟨t, ht⟩ := unrolls_or_trueAfter hc hb limit (.integer 0) s
    · exact absurd hk (Nat.not_le.mpr (hnone k p hp))
    · exact ⟨t, ht, (LoopEnds.of_trueAfter ho ht (Nat.zero_add limit)).endsIn⟩

theorem EndsIn.ofOperand_tokens {form : SpecialForm} {xs : List (List Token)}
    {o : Options} {s t : State (List Token)} {r : Except Error Value}
    (h : EndsIn (ofDirect form xs) o s (r, t)) (hx : ∀ x ∈ xs, IsOperand x)
    (ha : form.arity.accepts xs.length) :
    EndsIn (ofOperand (form.tokens xs)) o s (r.mapError (·.locate (form.tokens xs)), t) := by
  refine (applies_tokens form hx).endsIn ?_
  simpa only [evalBuiltin_special ha] using h

open SpecialForm (loopWhile loopFor)

/-- Every loop has the limit for itself: from whatever state it starts, and so within a round of
another loop or after one, it goes the way of its unrolling for as many rounds. A `for` does so
after its start. As an operand, which is how a loop is written within another, it ends like that
too, and an error names it. -/
theorem loops_stop_at_limit (rule : CallScope) (limit : Nat) :
    (∀ condition body s,
      StopsAt limit (ofOperand condition) (ofSequence body) ⟨rule, some limit⟩ s
        (EndsIn (ofDirect loopWhile (condition :: body)) ⟨rule, some limit⟩ s)) ∧
    (∀ start condition body update s v t,
      EndsIn (ofOperand start) ⟨rule, some limit⟩ s (.ok v, t) →
        StopsAt limit (ofOperand condition) (ofRound body update) ⟨rule, some limit⟩ t
          (EndsIn (ofDirect loopFor [start, condition, body, update]) ⟨rule, some limit⟩ s)) ∧
    ∀ form xs s r t, (∀ x ∈ xs, IsOperand x) → form.arity.accepts xs.length →
      EndsIn (ofDirect form xs) ⟨rule, some limit⟩ s (r, t) →
        EndsIn (ofOperand (form.tokens xs)) ⟨rule, some limit⟩ s
          (r.mapError (·.locate (form.tokens xs)), t) := by
  refine ⟨fun condition body s => ?_, ?_, fun _ _ _ _ _ hx ha h => h.ofOperand_tokens hx ha⟩
  · exact stopsAt_loop rfl (ends_ofOperand rule limit condition)
      (ends_evalSequence rule limit body .empty) s
  · intro start condition body update s v t hstart
    have hstops := stopsAt_loop rfl (ends_ofOperand rule limit condition)
      (ends_ofRound rule limit body update) t
    exact {
      within := fun k p hp hk => hstart.bind_ok (hstops.within k p hp hk)
      beyond := fun hnone =>
        let ⟨u, hu, hend⟩ := hstops.beyond hnone
        ⟨u, hu, hstart.bind_ok hend⟩ }

/-! The operands of a loop that has two others in its one round, and a state to run it from. -/
namespace Triple

def condition : List Token := Lexer.cut "(< i 1)".toList

def first : List Token := Lexer.cut "(while (< j 1) (print (setq j 1)))".toList

def second : List Token := Lexer.cut "(while (< k 1) (print (setq k 1)))".toList

def body : List (List Token) := [Lexer.cut "(setq i 1)".toList, first, second]

def before : State (List Token) where
  env :=
    { globals :=
        ((Scope.define {} "i" (.integer 0)).define "j" (.integer 0)).define "k" (.integer 0) }

/-- With a limit of one round, each of the three loops goes through one. With a limit of none, the
outer one fails at once. -/
theorem loops_stop_at_limit_triple :
    (∃ t, t.output = #["1", "1"] ∧ EndsIn (ofOperand (loopWhile.tokens (condition :: body)))
      { roundLimit := some 1 } before (.ok (.integer 1), t)) ∧
    ∃ e t, e.fault = .iterationLimit 0 ∧ t.output = #[] ∧
      EndsIn (ofOperand (loopWhile.tokens (condition :: body))) { roundLimit := some 0 } before
        (.error e, t) := by
  have hoperands : ∀ x ∈ condition :: body, IsOperand x := by
    have hsplit : splitOperands (condition :: body).flatten = .ok (condition :: body) := by
      decide +kernel
    exact fun x hx => isOperand_of_splitOperands hsplit hx
  constructor
  · have hrun : ((do
        let c ← ofOperand condition 20
        let v ← ofSequence body 20
        let d ← ofOperand condition 20
        return (c, v, d)) { roundLimit := some 1 } before).bind
          (fun p => p.1.toOption.map fun r => (r, p.2.output)) =
        some ((.integer 1, .integer 1, .integer 0), #["1", "1"]) := by
      decide +kernel
    obtain ⟨t, hrun, hout⟩ := exists_ok_of_run hrun
    obtain ⟨c, s, hc, hrun⟩ := bind_eq_ok hrun
    obtain ⟨v, u, hv, hrun⟩ := bind_eq_ok hrun
    obtain ⟨d, t, hd, hrun⟩ := bind_eq_ok hrun
    cases hrun
    have hround : GoesRound (ofOperand condition) (ofSequence body) { roundLimit := some 1 }
        before (.integer 1) u :=
      ⟨_, s, endsIn_ofOperand_iff.mpr ⟨20, hc⟩, rfl, endsIn_ofSequence_iff.mpr ⟨20, hv⟩⟩
    have hunrolls : Unrolls (ofOperand condition) (ofSequence body) { roundLimit := some 1 }
        (.integer 0) before 1 (.ok (.integer 1), t) :=
      .round hround (.stop (endsIn_ofOperand_iff.mpr ⟨20, hd⟩) (by decide))
    obtain ⟨hwhile, -, hform⟩ := loops_stop_at_limit .copyCaller 1
    exact ⟨t, hout, hform _ _ _ _ _ hoperands rfl
      ((hwhile condition body before).within 1 _ hunrolls (Nat.le_refl 1))⟩
  · have hrun : (ofOperand condition 20 { roundLimit := some 0 } before).bind
        (fun p => p.1.toOption.map fun r => (r, p.2.output)) = some (.integer 1, #[]) := by
      decide +kernel
    obtain ⟨t, hc, hout⟩ := exists_ok_of_run hrun
    have hend := endsIn_ofOperand_iff.mpr ⟨20, hc⟩
    obtain ⟨hwhile, -, hform⟩ := loops_stop_at_limit .copyCaller 0
    obtain ⟨u, hu, hloop⟩ := (hwhile condition body before).beyond
      fun k p hp => (TrueAfter.now hend rfl).lt_of_unrolls hp
    cases hu with
    | now hend' _ =>
      cases hend.unique hend'
      exact ⟨_, t, rfl, hout, hform _ _ _ _ _ hoperands rfl hloop⟩

end Triple
end FlatLisp
