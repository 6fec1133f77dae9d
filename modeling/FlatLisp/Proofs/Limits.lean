import FlatLisp.Proofs.Ending
import FlatLisp.Proofs.Environment
import FlatLisp.Token.Lexer

/-! The limits on calls and on rounds only guard: an evaluation that none of them ends is the same
under wider ones. -/
namespace FlatLisp
open Machine Evaluation

variable {β : Type}

def Environment.withLimit (env : Environment β) (limit : Nat) : Environment β :=
  { env with recursionLimit := limit }

/-- The state with another limit on the calls that are active at once. -/
def State.withLimit (s : State β) (limit : Nat) : State β := { s with env := s.env.withLimit limit }

/-- One limit on the rounds of a loop is at least as wide as another. Having none is the widest. -/
def WiderRounds : Option Nat → Option Nat → Prop
  | _, none => True
  | none, some _ => False
  | some m, some n => m ≤ n

/-- The fault is that a limit has been exceeded. -/
def Fault.IsLimit (f : Fault) : Prop :=
  f.kind = .recursionLimitExceeded ∨ f.kind = .iterationLimitExceeded

namespace Environment
variable (env : Environment β) (limit : Nat)

theorem assign_withLimit (name : String) (v : Value) :
    (env.withLimit limit).assign name v = (env.assign name v).withLimit limit := by
  simp only [assign, withLimit]
  split <;> rfl

theorem pushCall_withLimit (rule : CallScope) :
    (env.withLimit limit).pushCall rule = (env.pushCall rule).withLimit limit := by
  cases rule <;> rfl

end Environment

/-- The second state is the first one under a limit that is at least as wide. -/
def Widened (limit : Nat) (s t : State β) : Prop :=
  t = s.withLimit limit ∧ s.env.recursionLimit ≤ limit

theorem correspondence_widened (limit : Nat) :
    Correspondence .full Eq (Widened (β := β) limit) where
  lookup := by
    intro s t name _ h
    obtain ⟨rfl, -⟩ := h
    exact ⟨rfl, fun _ _ => trivial⟩
  assign := by
    intro s t name v _ _ h
    obtain ⟨rfl, hl⟩ := h
    constructor
    · simp only [State.withLimit, Environment.assign_withLimit]
    · rwa [Environment.assign_eq]
  function? := by
    intro s t name _ h
    obtain ⟨rfl, -⟩ := h
    exact optionRel_eq _
  define := by
    intro s t f g hf h
    obtain ⟨rfl, hl⟩ := h
    rw [hf]
    exact ⟨rfl, hl⟩
  print := by
    intro s t v _ h
    obtain ⟨rfl, hl⟩ := h
    exact ⟨rfl, hl⟩

/-- A run that a limit ends says nothing about one under a wider limit. -/
def Exceeded (f : Option Fault) : Prop := ∃ g, f = some g ∧ g.IsLimit

theorem calls_widened (limit : Nat) (o : Options) (rounds : Option Nat) :
    Calls Exceeded (Widened (β := β) limit) o { o with roundLimit := rounds } where
  refused := by
    intro s t f _ he
    obtain ⟨-, rfl⟩ := Environment.enter_eq_error_iff.mp he
    exact .inl ⟨_, rfl, .inl rfl⟩
  entered := by
    intro s t e h he
    obtain ⟨rfl, hl⟩ := h
    obtain ⟨hd, rfl⟩ := Environment.enter_eq_ok_iff.mp he
    have hd' : s.env.depth < limit := Nat.lt_of_lt_of_le hd hl
    refine ⟨{ s.env with depth := s.env.depth + 1, recursionLimit := limit }, ?_, ?_, ?_⟩
    · exact Environment.enter_eq_ok_iff.mpr ⟨hd', rfl⟩
    · simp only [State.withLimit, ← Environment.pushCall_withLimit]
      rfl
    · obtain ⟨a, ha⟩ := Environment.pushCall_eq { s.env with depth := s.env.depth + 1 } o.callScope
      rwa [ha]
  left := by
    intro s t h
    obtain ⟨rfl, hl⟩ := h
    exact ⟨rfl, hl⟩

theorem follows_guardRound {limit n : Nat} {o : Options} {rounds : Option Nat}
    (hw : WiderRounds o.roundLimit rounds) {s t : State β} (hs : Widened limit s t) :
    Follows Exceeded (Widened limit) Eq (guardRound n o s)
      (guardRound n { o with roundLimit := rounds } t) := by
  simp only [guardRound]
  cases hr : o.roundLimit with
  | none =>
    cases rounds with
    | none => exact .ok rfl hs
    | some more => simp [WiderRounds, hr] at hw
  | some bound =>
    simp only
    split
    · exact .lost ⟨_, rfl, .inr rfl⟩
    · cases rounds with
      | none => exact .ok rfl hs
      | some more =>
        have hle : bound ≤ more := by simpa [WiderRounds, hr] using hw
        simp only
        rw [if_neg (by omega)]
        exact .ok rfl hs

/-- Runs under limits and under wider ones. -/
def widened (limit : Nat) (o : Options) (rounds : Option Nat) :
    Coupling .full (Evaluation (List Token)) (Evaluation (List Token)) :=
  (correspondence_widened limit).coupling Exceeded o { o with roundLimit := rounds }

theorem widened_uniform (limit : Nat) {o : Options} {rounds : Option Nat}
    (hw : WiderRounds o.roundLimit rounds) :
    (widened limit o rounds).Uniform (fun _ => True) 0 := by
  apply Coupling.Uniform.of_full_zero
  · exact fun _ _ => Iff.rfl
  · exact fun _ _ _ => .exhausted
  · exact fun _ s t hs => follows_guardRound hw hs
  · intro f x y h s t hs
    exact Follows.called (calls_widened limit o rounds) hs h

theorem eq_of_follows_widened {limit : Nat} {x y : Option (Except Error Value × State β)}
    {r : Except Error Value} {t : State β}
    (h : Follows Exceeded (Widened limit) (Same fun _ => True) x y) (hx : x = some (r, t))
    (hr : ∀ e, r = .error e → ¬ e.fault.IsLimit) : y = some (r, t.withLimit limit) := by
  subst hx
  cases h with
  | ok ha hs => rw [ha.1, hs.1]
  | error hs => rw [hs.1]
  | lost hx =>
    obtain ⟨f, hf, hk⟩ := hx
    cases hf
    exact absurd hk (hr _ rfl)

/-- Once it is known how an evaluation ends and that no limit was in its way, it is known how it
ends under wider limits: with the same outcome and output, and in the same state but for the
limit. -/
theorem endsIn_of_wider_limits {tokens : List Token} {o : Options} {s t : State (List Token)}
    {r : Except Error Value} (h : EndsIn (ofProgram tokens) o s (r, t))
    (hr : ∀ e, r = .error e →
      e.kind ≠ .recursionLimitExceeded ∧ e.kind ≠ .iterationLimitExceeded)
    {limit : Nat} (hl : s.env.recursionLimit ≤ limit) {rounds : Option Nat}
    (hw : WiderRounds o.roundLimit rounds) :
    EndsIn (ofProgram tokens) { o with roundLimit := rounds } (s.withLimit limit)
      (r, t.withLimit limit) := by
  obtain ⟨n, hn⟩ := h
  refine ⟨n, fun steps hsteps => ?_⟩
  have hf := (widened_uniform limit hw).rel_evaluateProgram steps
    fun x (_ : x <:+: tokens) => trivial
  exact eq_of_follows_widened (hf s _ ⟨rfl, hl⟩) (hn steps hsteps)
    fun e he => not_or.mpr (hr e he)

/-- A program with a recursion that is three calls deep and a loop of two rounds. -/
def countdown : List Token :=
  Lexer.cut "(defun f (n) (if (= n 0) stop (f (- n 1)))) (setq i 0)
    (while (< i 2) (print i) (setq i (+ i 1))) (f 2)".toList

theorem endsIn_countdown_of_wider_limits :
    ∃ t, EndsIn (ofProgram countdown) { roundLimit := some 2 } { env := { recursionLimit := 3 } }
        (.ok (.text "stop"), t) ∧
      EndsIn (ofProgram countdown) { roundLimit := none } { env := { recursionLimit := 1000 } }
        (.ok (.text "stop"), t.withLimit 1000) := by
  have hv : (ofProgram countdown 20 { roundLimit := some 2 }
      { env := { recursionLimit := 3 } }).bind (·.1.toOption) = some (.text "stop") := by
    decide +kernel
  obtain ⟨t, h⟩ := endsIn_of_toOption hv
  exact ⟨t, h, endsIn_of_wider_limits h (by simp) (by decide) trivial⟩

end FlatLisp
