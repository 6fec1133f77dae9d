import FlatLisp.Console
import FlatLisp.Proofs.Lines

/-! How the console counts parens: as the lexer does, on whatever text. -/
namespace FlatLisp
open Nesting Lexer

/-- How many more parens the text opens than it closes. -/
def excess (text : List Char) : Int := (text.count '(' : Int) - text.count ')'

theorem excess_append_break (before after : List Char) :
    excess (before ++ '\n' :: after) = excess before + excess after := by
  simp only [excess, List.count_append, List.count_cons_of_ne (show '\n' ≠ '(' by decide),
    List.count_cons_of_ne (show '\n' ≠ ')' by decide)]
  omega

theorem lineBalance_eq {line : List Char} (h : '\n' ∉ line) :
    Console.lineBalance line = excess (stripComments line) := by
  rw [stripComments_of_line h]
  rfl

theorem sum_lineBalance {line : List Char} (h : '\n' ∉ line) (text : List Char) :
    ((linesFrom line text).map Console.lineBalance).foldr (· + ·) 0 =
      excess (stripComments (line.reverse ++ text)) := by
  induction text generalizing line with
  | nil =>
    simp only [linesFrom]
    split
    · obtain rfl : line = [] := by simpa using ‹line.isEmpty = true›
      rfl
    · simp [lineBalance_eq (show '\n' ∉ line.reverse by simpa using h)]
  | cons c text ih =>
    simp only [linesFrom]
    split
    · subst c
      have hrest := @ih [] (by simp)
      have hline := lineBalance_eq (show '\n' ∉ line.reverse by simpa using h)
      rw [List.map_cons, List.foldr_cons, hrest, hline]
      have hsplit : stripComments (line.reverse ++ '\n' :: text) =
          stripComments line.reverse ++ '\n' :: stripComments text :=
        stripFrom_append_break false _ _
      rw [hsplit, excess_append_break]
      rfl
    · have hc : '\n' ∉ c :: line := by
        simp only [List.mem_cons, not_or]
        exact ⟨fun hc => ‹¬ c = '\n'› hc.symm, h⟩
      simpa using ih hc

/-- The console and the lexer agree on the parens of a text. -/
theorem openBalance_eq (text : List Char) :
    Console.openBalance text = excess (stripComments text) :=
  @sum_lineBalance [] (by simp) text

theorem openBalance_of_openAfter {text : List Char} {opened : Nat}
    (h : openAfter 0 (tokensOf true text) = some opened) : Console.openBalance text = opened := by
  obtain ⟨-, hcount⟩ := (openAfter_cutFrom_iff []).mp h
  simp only [← List.count_eq_countP, code, if_true, Nat.zero_add] at hcount
  rw [openBalance_eq, excess, hcount]
  omega

end FlatLisp
