import FlatLisp.Proofs.Lines
import FlatLisp.Proofs.Sequence
import FlatLisp.Proofs.Session

/-! Sources that are joined by a line break. They are executed like one source after the other. -/
namespace FlatLisp.Session
open Nesting Evaluation Lexer

variable {s : Session} {first second : String} {tokens later : List Token}

theorem tokenize_joined (h : tokenize s.config.comments first = .ok tokens)
    (hl : tokenize s.config.comments second = .ok later) :
    tokenize s.config.comments (first ++ "\n" ++ second) = .ok (tokens ++ later) := by
  obtain ⟨rfl, ht⟩ := tokenize_eq_ok_iff_balanced.mp h
  obtain ⟨rfl, hb⟩ := tokenize_eq_ok_iff_balanced.mp hl
  refine tokenize_eq_ok_iff_balanced.mpr ⟨?_, ht.append hb⟩
  rw [← tokensOf_append_break]
  simp

/-- The second of two sources is executed in the session that the first one leaves, unless the first
one has failed. -/
theorem execute_joined_eq (h : tokenize s.config.comments first = .ok tokens)
    (hl : tokenize s.config.comments second = .ok later) (steps : Nat) :
    s.execute steps (first ++ "\n" ++ second) =
      match s.execute steps first with
      | some (⟨output, .ok v⟩, t) =>
        if later = [] then some (⟨output, .ok v⟩, t)
        else (t.execute steps second).map fun (x, u) => (⟨output ++ x.output, x.outcome⟩, u)
      | failed => failed := by
  obtain ⟨-, ht⟩ := tokenize_eq_ok_iff_balanced.mp h
  obtain ⟨-, hb⟩ := tokenize_eq_ok_iff_balanced.mp hl
  rw [execute_of_tokenize (tokenize_joined h hl), execute_of_tokenize h, ofProgram_append ht hb]
  rcases ofProgram tokens steps s.config.options { env := s.env } with _ | ⟨e | v, t⟩
  · rfl
  · rfl
  · simp only [Option.map_some]
    split
    · rfl
    · have hsecond := execute_of_tokenize (s := { s with env := t.env }) hl steps
      rw [hsecond, Option.map_map, Option.map_map]
      rfl

/-- Two sources that are joined by a line break have the tokens of both. If the execution of the
first one fails, so does that of the joined source, with all else as it is then. If it succeeds and
the second one has tokens, the joined source has the outcome of the second one in the session that
the first one leaves, the output of both, and leaves the same session. If the second one has no
tokens, it makes no difference. -/
theorem execute_joined (h : tokenize s.config.comments first = .ok tokens)
    (hl : tokenize s.config.comments second = .ok later) :
    tokenize s.config.comments (first ++ "\n" ++ second) = .ok (tokens ++ later) ∧
    ∀ steps,
      (∀ x t e, s.execute steps first = some (x, t) → x.outcome = .error e →
        s.execute steps (first ++ "\n" ++ second) = some (x, t)) ∧
      (∀ x t v, s.execute steps first = some (x, t) → x.outcome = .ok v → later ≠ [] →
        s.execute steps (first ++ "\n" ++ second) =
          (t.execute steps second).map fun (y, u) => (⟨x.output ++ y.output, y.outcome⟩, u)) ∧
      (later = [] → s.execute steps (first ++ "\n" ++ second) = s.execute steps first) ∧
      (s.execute steps first = none → s.execute steps (first ++ "\n" ++ second) = none) := by
  refine ⟨tokenize_joined h hl, fun steps => ?_⟩
  have hjoined := execute_joined_eq h hl steps
  refine ⟨?_, ?_, ?_, ?_⟩
  · rintro ⟨output, _⟩ t e hx rfl
    rw [hjoined, hx]
  · rintro ⟨output, _⟩ t v hx rfl hne
    rw [hjoined, hx]
    exact if_neg hne
  · intro hnil
    rw [hjoined]
    split
    · rw [if_pos hnil, ‹s.execute steps first = _›]
    · rfl
  · intro hnone
    rw [hjoined, hnone]

/-- A source that ends in a comment with a paren, which reaches to the line break. -/
def remarked : String := "(setq x 1) (print x) ; (see below"

/-- A source that uses a variable of the first one, and fails. -/
def followUp : String := "; )\n(print (+ x 1)) (/ x 0)"

theorem execute_remarked_joined_followUp :
    ∃ x t y u e, (start { comments := true }).execute 20 remarked = some (x, t) ∧
      t.execute 20 followUp = some (y, u) ∧ y.outcome = .error e ∧ e.fault = .divisionByZero ∧
      (start { comments := true }).execute 20 (remarked ++ "\n" ++ followUp) =
        some (⟨#["1", "2"], .error e⟩, u) := by
  have hfirst : tokenize true remarked = .ok (cut "(setq x 1) (print x)".toList) := by
    decide +kernel
  have hsecond : tokenize true followUp = .ok (cut "(print (+ x 1)) (/ x 0)".toList) := by
    decide +kernel
  have hone : ((start { comments := true }).execute 20 remarked).map
      (fun p => (p.1.output, p.1.outcome.toOption)) = some (#["1"], some (.integer 1)) := by
    decide +kernel
  have htwo : (((start { comments := true }).execute 20 remarked).bind fun p =>
      (p.2.execute 20 followUp).bind fun q => (faultOf? q.1.outcome).map fun f =>
        (q.1.output, f)) = some (#["2"], .divisionByZero) := by
    decide +kernel
  obtain ⟨⟨⟨output, r⟩, t⟩, hx, hv⟩ := Option.map_eq_some_iff.mp hone
  obtain ⟨rfl, hr⟩ : output = #["1"] ∧ r.toOption = some (.integer 1) := by simpa using hv
  rw [hx, Option.bind_some] at htwo
  obtain ⟨⟨⟨printed, q⟩, u⟩, hy, hf⟩ := Option.bind_eq_some_iff.mp htwo
  cases r with
  | error e => cases hr
  | ok v =>
    cases q with
    | ok w => cases hf
    | error e =>
      obtain ⟨rfl, he⟩ : printed = #["2"] ∧ e.fault = .divisionByZero := by
        simpa [faultOf?] using hf
      refine ⟨_, t, _, u, e, hx, hy, rfl, he, ?_⟩
      have hne : cut "(print (+ x 1)) (/ x 0)".toList ≠ [] := by decide +kernel
      rw [((execute_joined hfirst hsecond).2 20).2.1 _ t v hx rfl hne, hy]
      rfl

end FlatLisp.Session
