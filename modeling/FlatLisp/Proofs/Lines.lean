import FlatLisp.Proofs.Lexer
import FlatLisp.Text.Lines

/-! The lexer on the lines of a text. No comment and no word goes on behind a line break, so that
the tokens of a text are those of its lines. -/
namespace FlatLisp.Lexer
open Nesting

variable {comments inside : Bool} {c : Char} {text before after line : List Char}

/-- The part of a text that is cut into tokens. -/
def code (comments : Bool) (text : List Char) : List Char :=
  if comments then stripComments text else text

/-- The tokens of a text, if its parens balance. -/
def tokensOf (comments : Bool) (text : List Char) : List Token := cut (code comments text)

theorem tokenize_eq_ok_iff_balanced {source : String} {tokens : List Token} :
    tokenize comments source = .ok tokens ↔
      tokensOf comments source.toList = tokens ∧ Balanced tokens := by
  simp only [tokenize, tokensOf, code]
  generalize (if comments then stripComments source.toList else source.toList) = text
  rcases hi : imbalance? text with _ | cause
  · have hb : Balanced (cut text) := imbalance?_eq_none_iff.mp hi
    constructor
    · intro h
      obtain rfl := Except.ok.inj h
      exact ⟨rfl, hb⟩
    · rintro ⟨rfl, -⟩
      rfl
  · constructor
    · intro h
      cases h
    · rintro ⟨rfl, hb⟩
      rw [imbalance?_eq_none_iff.mpr hb] at hi
      cases hi

theorem stripFrom_append_break (inside : Bool) (before after : List Char) :
    stripFrom inside (before ++ '\n' :: after) =
      stripFrom inside before ++ '\n' :: stripComments after := by
  induction before generalizing inside with
  | nil => simp [stripFrom, stripComments]
  | cons c before ih =>
    by_cases hc : c = '\n'
    · subst c
      simp [stripFrom, ih]
    · simp only [List.cons_append, stripFrom, ih]
      split <;> rfl

/-- Behind a semicolon, the rest of the line is left out. -/
theorem stripFrom_inside_append (h : '\n' ∉ line) (rest : List Char) :
    stripFrom true (line ++ rest) = stripFrom true rest := by
  induction line with
  | nil => rfl
  | cons c line ih =>
    obtain ⟨hc, hline⟩ := not_or.mp (mt List.mem_cons.mpr h)
    simp [stripFrom, Ne.symm hc, ih hline]

/-- The code of a line is what comes before its first semicolon. -/
theorem stripComments_of_line (h : '\n' ∉ line) :
    stripComments line = line.takeWhile (· ≠ ';') := by
  induction line with
  | nil => rfl
  | cons c line ih =>
    obtain ⟨hc, hline⟩ := not_or.mp (mt List.mem_cons.mpr h)
    by_cases hs : c = ';'
    · subst c
      have hinside : stripFrom true line = [] := by
        simpa [stripFrom] using stripFrom_inside_append hline []
      simp [stripComments, stripFrom, hinside]
    · have hrest : stripFrom false line = line.takeWhile (· ≠ ';') := ih hline
      simp [stripComments, stripFrom, Ne.symm hc, hs, hrest]

theorem code_append_break (before after : List Char) :
    code comments (before ++ '\n' :: after) =
      code comments before ++ '\n' :: code comments after := by
  cases comments with
  | false => rfl
  | true => exact stripFrom_append_break false before after

/-- A word ends at a blank. -/
theorem cutFrom_append_blank (hb : isBlank c) (word before after : List Char) :
    cutFrom word (before ++ c :: after) = cutFrom word before ++ cut after := by
  induction before generalizing word with
  | nil =>
    have hends : EndsWord (c :: after) := by
      rintro d ⟨⟩ hd
      exact hd.1 hb
    rw [List.nil_append, cutFrom_of_endsWord hends, cut_blank hb, cutFrom]
  | cons d before ih =>
    simp only [List.cons_append, cutFrom, ih]
    repeat' split
    all_goals simp

theorem cut_append_blank (hb : isBlank c) (before after : List Char) :
    cut (before ++ c :: after) = cut before ++ cut after := cutFrom_append_blank hb [] before after

theorem tokensOf_append_break (before after : List Char) :
    tokensOf comments (before ++ '\n' :: after) =
      tokensOf comments before ++ tokensOf comments after := by
  rw [tokensOf, code_append_break]
  exact cut_append_blank (by decide) _ _

section Blanks

theorem ne_semicolon_of_isBlank (hb : isBlank c) : c ≠ ';' := by
  rintro rfl
  exact absurd hb (by decide)

/-- A blank stays in the code unless it is in a comment. -/
theorem stripFrom_append_blank (hb : isBlank c) (inside : Bool) (text : List Char) :
    stripFrom inside (text ++ [c]) = stripFrom inside text ∨
      stripFrom inside (text ++ [c]) = stripFrom inside text ++ [c] := by
  have hc := ne_semicolon_of_isBlank hb
  induction text generalizing inside with
  | nil =>
    by_cases hn : c = '\n'
    · subst c
      exact .inr rfl
    · cases inside with
      | false => exact .inr (by simp [stripFrom, hc])
      | true => exact .inl (by simp [stripFrom])
  | cons d text ih =>
    by_cases hn : d = '\n'
    · subst d
      simpa [stripFrom] using ih false
    · simp only [List.cons_append, stripFrom]
      split
      · exact ih true
      · simpa using ih false

theorem tokensOf_append_blank (hb : isBlank c) (text : List Char) :
    tokensOf comments (text ++ [c]) = tokensOf comments text := by
  have hcut : cut (code comments text ++ [c]) = cut (code comments text) :=
    (cut_append_blank hb _ []).trans (List.append_nil _)
  cases comments with
  | false => exact hcut
  | true =>
    have hstrip := stripFrom_append_blank hb false text
    simp only [tokensOf, code, if_true, stripComments] at hcut ⊢
    obtain h | h := hstrip
    · rw [h]
    · rw [h, hcut]

theorem tokensOf_blank (hb : isBlank c) (text : List Char) :
    tokensOf comments (c :: text) = tokensOf comments text := by
  have hcode : code comments (c :: text) = c :: code comments text := by
    cases comments with
    | false => rfl
    | true =>
      have hc := ne_semicolon_of_isBlank hb
      by_cases hn : c = '\n'
      · subst c
        rfl
      · simp [code, stripComments, stripFrom, hc]
  rw [tokensOf, hcode, cut_blank hb, tokensOf]

theorem tokensOf_dropWhile_isBlank (text : List Char) :
    tokensOf comments (text.dropWhile isBlank) = tokensOf comments text := by
  induction text with
  | nil => rfl
  | cons c text ih =>
    rw [List.dropWhile_cons]
    split
    · rw [ih, tokensOf_blank ‹_›]
    · rfl

/-- The same at the end, where the text is read backwards. -/
theorem tokensOf_reverse_dropWhile_isBlank (text : List Char) :
    tokensOf comments (text.dropWhile isBlank).reverse = tokensOf comments text.reverse := by
  induction text with
  | nil => rfl
  | cons c text ih =>
    rw [List.dropWhile_cons]
    split
    · rw [ih, List.reverse_cons, tokensOf_append_blank ‹_›]
    · rfl

theorem tokensOf_trimBlanks (text : List Char) :
    tokensOf comments (trimBlanks text) = tokensOf comments text := by
  rw [trimBlanks, tokensOf_reverse_dropWhile_isBlank, List.reverse_reverse,
    tokensOf_dropWhile_isBlank]

end Blanks

end FlatLisp.Lexer
