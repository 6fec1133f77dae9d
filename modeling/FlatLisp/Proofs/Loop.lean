import FlatLisp.Proofs.Call

/-! Loops. A `for` goes the way of its start and of a `while` that has the update at the end of its
body. The two differ in their values and in the forms that their errors name. -/
namespace FlatLisp
open Machine Eval Nesting Evaluation

/-- One operand, as an evaluation that runs with a number of steps. -/
abbrev Evaluation.ofOperand (x : List Token) (steps : Nat) : Evaluation (List Token) Value :=
  evalOperand (evalForm steps) x

/-- Operands one after another for the value of the last one, likewise. -/
abbrev Evaluation.ofSequence (xs : List (List Token)) (steps : Nat) :
    Evaluation (List Token) Value := evalSequence (evalForm steps) .empty xs

/-- The special form as it is written with these operands. -/
def SpecialForm.tokens (form : SpecialForm) (xs : List (List Token)) : List Token :=
  .openParen :: ⟨.symbol, form.symbol⟩ :: (xs.flatten ++ [.closeParen])

section Forms
variable {form : SpecialForm} {xs : List (List Token)}

theorem applies_tokens (form : SpecialForm) (h : ∀ x ∈ xs, IsOperand x) :
    Applies (form.tokens xs) (.special form) xs := applies_headedBy (.special form) h

theorem ofNested_tokens (h : ∀ x ∈ xs, IsOperand x) (hx : form.arity.accepts xs.length)
    (steps : Nat) :
    ofNested (form.tokens xs) (steps + 1) =
      located (form.tokens xs) (ofSpecial form xs steps steps) := by
  rw [evalForm_of_applies (applies_tokens form h), evalBuiltin_special hx]

/-- Among operands, the special form is evaluated as a form. -/
theorem ofOperand_tokens (steps : Nat) :
    ofOperand (form.tokens xs) steps = ofNested (form.tokens xs) steps := rfl

theorem rel_ofOperand (x : List Token) (o : Options) (steps extra : Nat) :
    (moreSteps o).Rel (Same Vocabulary.full.Good) (ofOperand x steps)
      (ofOperand x (steps + extra)) :=
  Coupling.rel_evalOperand (Vocabulary.full_spells x)
    ((moreSteps_uniform o extra).rel_evalForm steps trivial)

theorem endsIn_ofOperand_iff {x : List Token} {o : Options} {s : State (List Token)}
    {p : Except Error Value × State (List Token)} :
    EndsIn (ofOperand x) o s p ↔ ∃ steps, ofOperand x steps o s = some p :=
  endsIn_iff (rel_ofOperand x o)

theorem endsIn_ofSequence_iff {o : Options} {s : State (List Token)}
    {p : Except Error Value × State (List Token)} :
    EndsIn (ofSequence xs) o s p ↔ ∃ steps, ofSequence xs steps o s = some p :=
  endsIn_iff fun steps extra =>
    Coupling.Operands.rel_evalSequence
      ((moreSteps_uniform o extra).operands steps fun _ _ => trivial) trivial

end Forms

section Told
variable {β α γ δ : Type} {o : Options} {s : State β}

/-- What is told of an end: whether it fails and with which fault, and the state, but neither a
value nor the forms that an error names. -/
def told (p : Option (Except Error α × State β)) : Option (Option Fault × State β) :=
  p.map (Prod.map faultOf? id)

theorem told_located (form : List Token) (x : Evaluation β α) :
    told (located form x o s) = told (x o s) := by
  rw [located_eq_map]
  rcases x o s with _ | ⟨e | a, t⟩
  · rfl
  · simp [told, faultOf?, Except.mapError, Error.fault_locate]
  · rfl

theorem isSome_of_told_bind {x : Evaluation β α} {f : α → Evaluation β γ}
    (h : (told ((x >>= f) o s)).isSome) : (x o s).isSome := by
  simp only [Bind.bind] at h
  cases hx : x o s with
  | none => simp [hx, told] at h
  | some p => rfl

theorem told_bind {x : Evaluation β α} {y : Evaluation β γ} {f : α → Evaluation β δ}
    {g : γ → Evaluation β δ} (h : told (x o s) = told (y o s))
    (hf : ∀ a b t, x o s = some (.ok a, t) → y o s = some (.ok b, t) →
      told (f a o t) = told (g b o t)) :
    told ((x >>= f) o s) = told ((y >>= g) o s) := by
  simp only [Bind.bind]
  generalize x o s = p at h hf
  generalize y o s = q at h hf
  rcases p with _ | ⟨e | a, t⟩ <;> rcases q with _ | ⟨e' | b, t'⟩ <;>
    simp only [told, Option.map_some, Option.map_none, Prod.map_apply, faultOf?, id_eq,
      reduceCtorEq, Option.some.injEq, Prod.mk.injEq, false_and] at h ⊢
  · exact h
  · obtain rfl := h.2
    exact hf a b t rfl rfl

/-- Loops on one condition go the same way if their bodies do, whatever the values of the bodies
are: by induction on the steps, since a round that goes through leaves one step less. -/
theorem told_loop {condition body other : Evaluation β Value}
    (h : ∀ s, told (body o s) = told (other o s)) (steps rounds : Nat) (last last' : Value) :
    told (loop condition body steps rounds last o s) =
      told (loop condition other steps rounds last' o s) := by
  induction steps generalizing rounds last last' s with
  | zero => rfl
  | succ steps ih =>
    refine told_bind rfl fun c c' t hc hc' => ?_
    obtain rfl : c = c' := by simpa using hc.symm.trans hc'
    split
    · refine told_bind rfl fun _ _ _ _ _ => told_bind (h _) fun v w u _ _ => ?_
      exact ih (rounds + 1) v w
    · rfl

/-- The value of a round counts for the loop, but what is told of it is that of a sequence. -/
theorem told_forRound (self : List Token → Evaluation (List Token) Value)
    (body update : List Token) (s : State (List Token)) :
    told (forRound self body update o s) = told (evalSequence self .empty [body, update] o s) :=
  told_bind rfl fun _ _ _ _ _ => told_bind rfl fun _ _ _ _ _ => rfl

end Told

section Rounds
variable {β : Type} {o : Options} {s t : State β} {v : Value} {vs : List Value}

/-- Rounds one after another, with the values that they give. -/
inductive Rounds (Round : State β → Value → State β → Prop) :
    State β → List Value → State β → Prop
  | nil {s : State β} : Rounds Round s [] s
  | cons {s t u : State β} {v : Value} {vs : List Value} :
      Round s v u → Rounds Round u vs t → Rounds Round s (v :: vs) t

theorem Rounds.mono {R R' : State β → Value → State β → Prop}
    (h : ∀ s v t, R s v t → R' s v t) (hr : Rounds R s vs t) : Rounds R' s vs t := by
  induction hr with
  | nil => exact .nil
  | cons hround _ ih => exact .cons (h _ _ _ hround) ih

/-- The condition is true, and then the body goes through. -/
def RoundOf (condition body : Evaluation β Value) (o : Options) (s : State β) (v : Value)
    (t : State β) : Prop :=
  ∃ c u, condition o s = some (.ok c, u) ∧ c.isTruthy ∧ body o u = some (.ok v, t)

/-- A loop that ends well has gone through its rounds, after which the condition is false. -/
theorem rounds_of_loop {condition body : Evaluation β Value} {steps rounds : Nat} {last : Value}
    (h : loop condition body steps rounds last o s = some (.ok v, t)) :
    ∃ vs u c, Rounds (RoundOf condition body o) s vs u ∧ condition o u = some (.ok c, t) ∧
      ¬ c.isTruthy ∧ v = vs.getLastD last := by
  induction steps generalizing rounds last s with
  | zero => cases h
  | succ steps ih =>
    obtain ⟨c, u, hc, hrest⟩ := bind_eq_ok h
    split at hrest
    · obtain ⟨_, u', hround, hbody⟩ := bind_eq_ok hrest
      obtain rfl := state_of_guardRound hround
      obtain ⟨w, u', hw, hloop⟩ := bind_eq_ok hbody
      obtain ⟨vs, t', d, hvs, hd, hfalse, hv⟩ := ih hloop
      have htrue : c.isTruthy := ‹_›
      refine ⟨w :: vs, t', d, .cons ⟨c, _, hc, htrue, hw⟩ hvs, hd, hfalse, ?_⟩
      rw [List.getLastD_cons, hv]
    · obtain ⟨rfl, rfl⟩ : last = v ∧ u = t := by
        cases hrest
        exact ⟨rfl, rfl⟩
      exact ⟨[], s, c, .nil, hc, ‹_›, rfl⟩

end Rounds

/-- The evaluation ends in the state, with the fault if it is an error. -/
def HaltsWith {β α : Type} (x : Nat → Evaluation β α) (o : Options) (s : State β)
    (fault : Option Fault) (t : State β) : Prop :=
  ∃ r, EndsIn x o s (r, t) ∧ faultOf? r = fault

theorem told_eq_some_iff {β α : Type} {p : Option (Except Error α × State β)}
    {fault : Option Fault} {t : State β} :
    told p = some (fault, t) ↔ ∃ r, p = some (r, t) ∧ faultOf? r = fault := by
  rcases p with _ | ⟨r, u⟩ <;> simp [told, and_comm]

theorem HaltsWith.eventually {β α : Type} {x : Nat → Evaluation β α} {o : Options} {s t : State β}
    {fault : Option Fault} (h : HaltsWith x o s fault t) :
    ∃ n, ∀ steps, n ≤ steps → told (x steps o s) = some (fault, t) := by
  obtain ⟨r, ⟨n, hn⟩, hr⟩ := h
  exact ⟨n, fun steps hle => told_eq_some_iff.mpr ⟨r, hn steps hle, hr⟩⟩

/-- Where one number of steps that is enough settles an end, one run tells how it halts. -/
theorem haltsWith_of_told {β α : Type} {x : Nat → Evaluation β α} {o : Options} {s t : State β}
    {fault : Option Fault} (hx : ∀ p, EndsIn x o s p ↔ ∃ steps, x steps o s = some p) {steps : Nat}
    (h : told (x steps o s) = some (fault, t)) : HaltsWith x o s fault t := by
  obtain ⟨r, hr, hfault⟩ := told_eq_some_iff.mp h
  exact ⟨r, (hx _).mpr ⟨steps, hr⟩, hfault⟩

section For
open SpecialForm (loopFor loopWhile)

variable {start condition body update : List Token} {o : Options} {s t : State (List Token)}
  {fault : Option Fault} {v : Value} {steps : Nat}

/-- A round of a `for`: the condition is true, the body gives the value and the update goes
through. -/
def ForRound (o : Options) (condition body update : List Token) (s : State (List Token))
    (v : Value) (t : State (List Token)) : Prop :=
  ∃ c w s₁ s₂, EndsIn (ofOperand condition) o s (.ok c, s₁) ∧ c.isTruthy ∧
    EndsIn (ofOperand body) o s₁ (.ok v, s₂) ∧ EndsIn (ofOperand update) o s₂ (.ok w, t)

theorem forRound_of_roundOf
    (h : RoundOf (ofOperand condition steps) (forRound (evalForm steps) body update) o s v t) :
    ForRound o condition body update s v t := by
  obtain ⟨c, s₁, hc, htrue, hround⟩ := h
  obtain ⟨v', s₂, hbody, hrest⟩ := bind_eq_ok hround
  obtain ⟨w, s₃, hupdate, hv⟩ := bind_eq_ok hrest
  obtain ⟨rfl, rfl⟩ : v' = v ∧ s₃ = t := by
    cases hv
    exact ⟨rfl, rfl⟩
  exact ⟨c, w, s₁, s₂, endsIn_ofOperand_iff.mpr ⟨steps, hc⟩, htrue,
    endsIn_ofOperand_iff.mpr ⟨steps, hbody⟩, endsIn_ofOperand_iff.mpr ⟨steps, hupdate⟩⟩

variable (hstart : IsOperand start) (hcondition : IsOperand condition) (hbody : IsOperand body)
  (hupdate : IsOperand update)
include hcondition hbody hupdate

theorem ofNested_while (steps : Nat) :
    ofNested (loopWhile.tokens [condition, body, update]) (steps + 1) =
      located (loopWhile.tokens [condition, body, update])
        (loop (ofOperand condition steps) (ofSequence [body, update] steps) steps 0
          (.integer 0)) :=
  ofNested_tokens (by simp [hcondition, hbody, hupdate]) rfl steps

include hstart

theorem ofNested_for (steps : Nat) :
    ofNested (loopFor.tokens [start, condition, body, update]) (steps + 1) =
      located (loopFor.tokens [start, condition, body, update])
        (ofOperand start steps >>= fun _ =>
          loop (ofOperand condition steps) (forRound (evalForm steps) body update) steps 0
            (.integer 0)) :=
  ofNested_tokens (by simp [hstart, hcondition, hbody, hupdate]) rfl steps

/-- The start of a `for` has one step less than that of a sequence, which makes no difference once
it ends. -/
theorem told_for (steps : Nat) (h : (ofOperand start steps o s).isSome) :
    told (ofNested (loopFor.tokens [start, condition, body, update]) (steps + 1) o s) =
      told (ofSequence [start, loopWhile.tokens [condition, body, update]] (steps + 1) o s) := by
  obtain ⟨p, hp⟩ := Option.isSome_iff_exists.mp h
  have hmore : ofOperand start (steps + 1) o s = some p :=
    eq_of_follows_eq (rel_ofOperand start o steps 1 s s rfl) hp
  rw [ofNested_for hstart hcondition hbody hupdate, told_located]
  refine told_bind (congrArg told (hp.trans hmore.symm)) fun _ _ t _ _ => ?_
  simp only [evalSequence, bind_pure, ofOperand_tokens]
  rw [ofNested_while hcondition hbody hupdate, told_located]
  exact told_loop (fun s => told_forRound _ _ _ s) _ _ _ _

/-- One run of each of them, with as many steps as either of them needs, settles both. -/
theorem haltsWith_for_iff :
    HaltsWith (ofNested (loopFor.tokens [start, condition, body, update])) o s fault t ↔
      HaltsWith (ofSequence [start, loopWhile.tokens [condition, body, update]]) o s fault t := by
  have hfor := fun steps => told_for (o := o) (s := s) hstart hcondition hbody hupdate steps
  constructor
  · intro h
    obtain ⟨n, hn⟩ := h.eventually
    have hsome := hn (n + 1) (Nat.le_add_right n 1)
    have hend : (ofOperand start n o s).isSome := by
      rw [ofNested_for hstart hcondition hbody hupdate, told_located] at hsome
      exact isSome_of_told_bind (Option.isSome_of_eq_some hsome)
    rw [hfor n hend] at hsome
    exact haltsWith_of_told (fun _ => endsIn_ofSequence_iff) hsome
  · intro h
    obtain ⟨n, hn⟩ := h.eventually
    have hsome := hn (n + 1) (Nat.le_add_right n 1)
    have hend : (ofOperand start n o s).isSome :=
      isSome_of_told_bind (Option.isSome_of_eq_some (hn n (Nat.le_refl n)))
    rw [← hfor n hend] at hsome
    exact haltsWith_of_told (fun _ => endsIn_ofNested_iff) hsome

/-- A `for` halts just where its start and then the `while` do: in the same environment, with the
same lines printed and, if it fails, with the same fault. Its value is that of the last body, or
zero where there was no round. -/
theorem for_iff_start_then_while (o : Options) (s : State (List Token)) :
    (∀ fault t,
      HaltsWith (ofNested (loopFor.tokens [start, condition, body, update])) o s fault t ↔
        HaltsWith (ofSequence [start, loopWhile.tokens [condition, body, update]]) o s fault t) ∧
    ∀ v t,
      EndsIn (ofNested (loopFor.tokens [start, condition, body, update])) o s (.ok v, t) →
        ∃ w c vs s₁ s₂, EndsIn (ofOperand start) o s (.ok w, s₁) ∧
          Rounds (ForRound o condition body update) s₁ vs s₂ ∧
          EndsIn (ofOperand condition) o s₂ (.ok c, t) ∧ ¬ c.isTruthy ∧
          v = vs.getLastD (.integer 0) := by
  refine ⟨fun _ _ => haltsWith_for_iff hstart hcondition hbody hupdate, ?_⟩
  intro v t h
  obtain ⟨n, hn⟩ := h
  have hrun := hn (n + 1) (Nat.le_add_right n 1)
  rw [ofNested_for hstart hcondition hbody hupdate] at hrun
  obtain ⟨r, hr, hok⟩ := located_eq_some hrun
  obtain rfl := hok v rfl
  obtain ⟨w, s₁, hw, hloop⟩ := bind_eq_ok hr
  obtain ⟨vs, s₂, c, hvs, hc, hfalse, hv⟩ := rounds_of_loop hloop
  exact ⟨w, c, vs, s₁, s₂, endsIn_ofOperand_iff.mpr ⟨n, hw⟩,
    hvs.mono fun _ _ _ => forRound_of_roundOf, endsIn_ofOperand_iff.mpr ⟨n, hc⟩, hfalse, hv⟩

end For

/-! The operands of a loop that counts to three and prints as it goes. -/
namespace Counting
open SpecialForm (loopFor loopWhile)

def start : List Token := Lexer.cut "(setq i 0)".toList

def condition : List Token := Lexer.cut "(< i 3)".toList

def body : List Token := Lexer.cut "(print i)".toList

def update : List Token := Lexer.cut "(setq i (+ i 1))".toList

theorem isOperand {x : List Token} (h : x ∈ [start, condition, body, update]) : IsOperand x := by
  have hsplit : splitOperands (start ++ condition ++ body ++ update) =
      .ok [start, condition, body, update] := by
    decide +kernel
  exact isOperand_of_splitOperands hsplit h

/-- With a limit of two rounds, the `while` fails after two lines, as the `for` does. Without a
limit, the `for` has the value that was printed last, and not the last one assigned. -/
theorem for_iff_start_then_while_counting :
    (∃ t : State (List Token), t.output = #["0", "1"] ∧
      HaltsWith (ofSequence [start, loopWhile.tokens [condition, body, update]])
        { roundLimit := some 2 } { env := {} } (some (.iterationLimit 2)) t) ∧
    ∃ w c vs s₁ s₂ t, EndsIn (ofOperand start) {} { env := {} } (.ok w, s₁) ∧
      Rounds (ForRound {} condition body update) s₁ vs s₂ ∧
      EndsIn (ofOperand condition) {} s₂ (.ok c, t) ∧ ¬ c.isTruthy ∧
      t.output = #["0", "1", "2"] ∧ vs.getLastD (.integer 0) = .integer 2 := by
  have hlike := for_iff_start_then_while (isOperand (x := start) (by simp))
    (isOperand (x := condition) (by simp)) (isOperand (x := body) (by simp))
    (isOperand (x := update) (by simp))
  constructor
  · have hlimit : ((ofNested (loopFor.tokens [start, condition, body, update]) 20
        { roundLimit := some 2 } { env := {} }).bind fun p =>
          (faultOf? p.1).map fun f => (f, p.2.output)) =
        some (.iterationLimit 2, #["0", "1"]) := by
      decide +kernel
    obtain ⟨⟨r, t⟩, hr, he⟩ := Option.bind_eq_some_iff.mp hlimit
    obtain ⟨f, hf, hpair⟩ := Option.map_eq_some_iff.mp he
    obtain ⟨rfl, hout⟩ : f = .iterationLimit 2 ∧ t.output = #["0", "1"] := by simpa using hpair
    exact ⟨t, hout, ((hlike _ _).1 _ t).mp ⟨r, endsIn_ofNested_iff.mpr ⟨20, hr⟩, hf⟩⟩
  · have hvalue : ((ofNested (loopFor.tokens [start, condition, body, update]) 20 {}
        { env := {} }).bind fun p => p.1.toOption.map fun v => (v, p.2.output)) =
        some (.integer 2, #["0", "1", "2"]) := by
      decide +kernel
    obtain ⟨⟨r, t⟩, hr, he⟩ := Option.bind_eq_some_iff.mp hvalue
    obtain ⟨v, hv, hpair⟩ := Option.map_eq_some_iff.mp he
    obtain ⟨rfl, hout⟩ : v = .integer 2 ∧ t.output = #["0", "1", "2"] := by simpa using hpair
    cases r with
    | error e => cases hv
    | ok v =>
      obtain rfl : v = .integer 2 := Option.some.inj hv
      obtain ⟨w, c, vs, s₁, s₂, hw, hvs, hc, hfalse, hlast⟩ :=
        (hlike _ _).2 _ t (endsIn_ofNested_iff.mpr ⟨20, hr⟩)
      exact ⟨w, c, vs, s₁, s₂, t, hw, hvs, hc, hfalse, hout, hlast.symm⟩

end Counting
end FlatLisp
