import FlatLisp.Proofs.Session
import FlatLisp.Proofs.Tree.Faults

/-! Parens in a session. The lexer turns away every text whose parens do not balance, and nothing
behind it ever finds a paren amiss. -/
namespace FlatLisp
open Nesting Evaluation

/-- A program fails as its trees do. -/
theorem isPlain_of_ofProgram {tokens : List Token} (ht : Balanced tokens)
    {s t : State (List Token)} (hs : s.env.BalancedBodies) {o : Options} {steps : Nat} {e : Error}
    (h : ofProgram tokens steps o s = some (.error e, t)) : e.fault.IsPlain := by
  obtain ⟨forest, hf⟩ := Option.isSome_iff_exists.mp (Tree.isSome_parse?_iff.mpr ht)
  have htrees := (ofForest_parsed hf hs o steps).1
  rw [h] at htrees
  exact Tree.plain_evalProgram steps .empty forest o _ e _ htrees

namespace Session

/-- The text of a source that is cut into tokens. -/
def text (s : Session) (source : String) : List Char :=
  if s.config.comments then Lexer.stripComments source.toList else source.toList

variable {s : Session} {source : String}

theorem text_of_comments (h : s.config.comments = true) (source : String) :
    s.text source = Lexer.stripComments source.toList := if_pos h

theorem execute_of_imbalance? {cause : Imbalance}
    (h : Lexer.imbalance? (s.text source) = some cause) (steps : Nat) :
    s.execute steps source = some (⟨#[], .error (.bare (.unbalanced cause))⟩, s) := by
  have ht : Lexer.tokenize s.config.comments source = .error (.unbalanced cause) := by
    simp only [Lexer.tokenize]
    rw [← text, h]
  simp only [execute, ht]

theorem tokenize_of_imbalance? (h : Lexer.imbalance? (s.text source) = none) :
    ∃ tokens, Lexer.tokenize s.config.comments source = .ok tokens := by
  refine ⟨Lexer.cut (s.text source), ?_⟩
  simp only [Lexer.tokenize]
  rw [← text, h]

theorem not_isStructural_of_imbalance? {text : List Char} {cause : Imbalance}
    (h : Lexer.imbalance? text = some cause) : ¬ (Fault.unbalanced cause).IsStructural := by
  obtain ⟨_, rfl⟩ | ⟨_, rfl⟩ := Lexer.cause_of_imbalanceFrom h
  · exact id
  · exact id

/-- Unclosed parens are found by the lexer alone, and only where more are opened than closed. -/
theorem ne_unclosed_of_execute (hs : s.Reachable)
    (hclosed : (s.text source).count '(' ≤ (s.text source).count ')') {steps : Nat}
    {x : Execution} {t : Session} (hx : s.execute steps source = some (x, t)) {e : Error}
    (he : x.outcome = .error e) (count : Nat) : e.fault ≠ .unbalanced (.unclosed count) := by
  intro hfault
  cases hc : Lexer.imbalance? (s.text source) with
  | some cause =>
    obtain ⟨rfl, -⟩ : _ = x ∧ _ = t := by
      simpa using (execute_of_imbalance? hc steps).symm.trans hx
    obtain rfl : Error.bare (.unbalanced cause) = e := Except.error.inj he
    obtain rfl : cause = .unclosed count := by simpa [Error.bare] using hfault
    have hopen := Lexer.imbalanceFrom_eq_unclosed_iff.mp hc
    omega
  | none =>
    obtain ⟨tokens, ht⟩ := tokenize_of_imbalance? hc
    obtain ⟨f, hf, -⟩ | ⟨tokens, u, ht, hu, -⟩ := execute_eq_some hx
    · cases hf.symm.trans ht
    · rw [he] at hu
      have hplain := isPlain_of_ofProgram (Lexer.balanced_of_tokenize ht) hs.atRest.bodies hu
      rw [hfault] at hplain
      exact hplain.1 rfl

/-- In every session, the execution of an unbalanced text fails without any effect, and that is the
only way for an execution to fail with unbalanced parens. None fails over the structure of what it
evaluates. -/
theorem execute_unbalanced_iff (hs : s.Reachable) (source : String) :
    (Lexer.Unbalanced (s.text source) →
      ∃ f, f.kind = .unbalancedParentheses ∧
        ∀ steps, s.execute steps source = some (⟨#[], .error ⟨f, []⟩⟩, s)) ∧
    ∀ steps x t, s.execute steps source = some (x, t) →
      ((∃ e, x.outcome = .error e ∧ e.kind = .unbalancedParentheses) ↔
        Lexer.Unbalanced (s.text source)) ∧
      ∀ e, x.outcome = .error e → ¬ e.fault.IsStructural := by
  rw [Lexer.unbalanced_iff_imbalance?]
  cases hc : Lexer.imbalance? (s.text source) with
  | some cause =>
    have hexecute := execute_of_imbalance? hc
    refine ⟨fun _ => ⟨.unbalanced cause, rfl, hexecute⟩, ?_⟩
    intro steps x t hx
    obtain ⟨rfl, -⟩ : _ = x ∧ _ = t := by simpa using (hexecute steps).symm.trans hx
    refine ⟨⟨fun _ => ⟨cause, rfl⟩, fun _ => ⟨_, rfl, rfl⟩⟩, ?_⟩
    rintro _ ⟨⟩
    exact not_isStructural_of_imbalance? hc
  | none =>
    refine ⟨by simp, ?_⟩
    intro steps x t hx
    obtain ⟨tokens, ht⟩ := tokenize_of_imbalance? hc
    obtain ⟨f, hf, -⟩ | ⟨tokens, u, ht, hu, -⟩ := execute_eq_some hx
    · cases hf.symm.trans ht
    · have hplain : ∀ e, x.outcome = .error e → e.fault.IsPlain := by
        intro e he
        rw [he] at hu
        exact isPlain_of_ofProgram (Lexer.balanced_of_tokenize ht) hs.atRest.bodies hu
      refine ⟨⟨?_, by simp⟩, fun e he => (hplain e he).2⟩
      intro h
      obtain ⟨e, he, hk⟩ := h
      exact absurd hk (hplain e he).1

/-- A source with a comment that hides its last paren, for a session that has a function with a
nested body. -/
def hidden : String := "(print 1) ((f 2) ; )\n"

theorem execute_hidden_after_definition :
    ∃ x s, (start { comments := true }).execute 20
        "(defun f (n) (setq n (+ n 1)) ((print n) (* n 2))) (f 1)" = some (x, s) ∧
      x.output = #["2"] ∧ Lexer.Unbalanced (s.text hidden) ∧
      ∃ f, f.kind = .unbalancedParentheses ∧
        ∀ steps, s.execute steps hidden = some (⟨#[], .error ⟨f, []⟩⟩, s) := by
  have hd : ((start { comments := true }).execute 20
      "(defun f (n) (setq n (+ n 1)) ((print n) (* n 2))) (f 1)").map (·.1.output) =
        some #["2"] := by
    decide +kernel
  obtain ⟨⟨x, s⟩, hx, hout⟩ := Option.map_eq_some_iff.mp hd
  have htext : s.text hidden = Lexer.stripComments hidden.toList := by
    simp only [text, config_of_execute hx, start, if_true]
  have hunbalanced : Lexer.Unbalanced (s.text hidden) := by
    rw [htext, Lexer.unbalanced_iff_imbalance?]
    exact ⟨.unclosed 1, by decide +kernel⟩
  have hs : s.Reachable := .execute (.start _) hx
  exact ⟨x, s, hx, hout, hunbalanced, (execute_unbalanced_iff hs hidden).1 hunbalanced⟩

end Session
end FlatLisp
