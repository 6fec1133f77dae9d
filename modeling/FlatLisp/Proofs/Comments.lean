import FlatLisp.Proofs.Rendering

/-! Comments. A text is cut into tokens as if they were not there, and what they say makes no
difference. -/
namespace FlatLisp.Lexer

variable {before remark after : List Char} {inside : Bool}

/-- The lines of a text, each one up to its first semicolon. -/
def codeLines (text : List Char) : List (List Char) :=
  (text.splitOn '\n').map fun line => line.takeWhile (· ≠ ';')

/-- The text without what stands in a line from its first semicolon on. -/
def withoutComments (source : String) : String :=
  String.ofList (['\n'].intercalate (codeLines source.toList))

theorem codeLines_append_break (h : '\n' ∉ before) (after : List Char) :
    codeLines (before ++ '\n' :: after) = before.takeWhile (· ≠ ';') :: codeLines after := by
  rw [codeLines, List.splitOn_append_cons_self_of_not_mem h, List.map_cons, codeLines]

theorem codeLines_ne_nil (text : List Char) : codeLines text ≠ [] := by
  simp [codeLines, List.splitOn_ne_nil]

/-- Line by line, by induction on the length: behind the first line break there is a shorter
text. -/
theorem stripComments_eq_intercalate (text : List Char) :
    stripComments text = ['\n'].intercalate (codeLines text) := by
  induction h : text.length using Nat.strongRecOn generalizing text with
  | ind n ih =>
    subst h
    by_cases hmem : '\n' ∈ text
    · obtain ⟨line, rest, rfl, hline⟩ := List.eq_append_cons_of_mem hmem
      have hrest := ih rest.length (by simp; omega) rest rfl
      have hbreak : stripComments (line ++ '\n' :: rest) =
          stripComments line ++ '\n' :: stripComments rest := stripFrom_append_break false line rest
      rw [hbreak, stripComments_of_line hline, hrest, codeLines_append_break hline,
        List.intercalate_cons_of_ne_nil (codeLines_ne_nil rest), List.append_assoc,
        List.singleton_append]
    · rw [stripComments_of_line hmem, codeLines, List.splitOn_eq_singleton hmem, List.map_singleton,
        List.intercalate_singleton]

/-- A remark that ends with its line may as well not be there, whether or not it stands behind
another semicolon. -/
theorem stripFrom_append_remark (hr : '\n' ∉ remark) (ha : ∀ c, after.head? = some c → c = '\n') :
    stripFrom inside (before ++ ';' :: (remark ++ after)) = stripFrom inside (before ++ after) := by
  induction before generalizing inside with
  | nil =>
    have hafter : stripFrom true after = stripFrom inside after := by
      cases after with
      | nil => rfl
      | cons c after =>
        obtain rfl := ha c rfl
        rfl
    simp [stripFrom, stripFrom_inside_append hr, hafter]
  | cons c before ih =>
    by_cases hc : c = '\n'
    · subst c
      simp [stripFrom, ih]
    · simp only [List.cons_append, stripFrom, ih]

theorem tokenize_true_eq (source : String) :
    tokenize true source = tokenize false (String.ofList (stripComments source.toList)) := by
  simp only [tokenize, String.toList_ofList, Bool.false_eq_true, if_true, if_false]

theorem tokenize_withoutComments (source : String) :
    tokenize true source = tokenize false (withoutComments source) := by
  rw [tokenize_true_eq, stripComments_eq_intercalate, withoutComments]

theorem tokenize_remark {before remark after : String} (hr : '\n' ∉ remark.toList)
    (ha : ∀ c, after.toList.head? = some c → c = '\n') :
    tokenize true (before ++ ";" ++ remark ++ after) = tokenize true (before ++ after) := by
  have hremark : stripFrom false (before.toList ++ ';' :: (remark.toList ++ after.toList)) =
      stripFrom false (before.toList ++ after.toList) := stripFrom_append_remark hr ha
  have hstrip : stripComments (before ++ ";" ++ remark ++ after).toList =
      stripComments (before ++ after).toList := by
    simpa [stripComments] using hremark
  rw [tokenize_true_eq, tokenize_true_eq, hstrip]

theorem stripComments_idempotent (text : List Char) :
    stripComments (stripComments text) = stripComments text :=
  stripFrom_of_not_mem (not_mem_stripFrom false text)

/-- In a language with comments, a text has the tokens or the error that the text without its
comments has in a language without them. So it makes no difference to put a semicolon with any
remark at the end of a line, which may be the last one. No token has a semicolon, and of a text
without comments nothing more is left out. -/
theorem comments_are_invisible :
    (∀ source, tokenize true source = tokenize false (withoutComments source)) ∧
    (∀ before remark after : String, '\n' ∉ remark.toList →
      (∀ c, after.toList.head? = some c → c = '\n') →
      tokenize true (before ++ ";" ++ remark ++ after) = tokenize true (before ++ after)) ∧
    (∀ source tokens, tokenize true source = .ok tokens →
      ∀ t ∈ tokens, ';' ∉ t.text.toList) ∧
    ∀ text, stripComments (stripComments text) = stripComments text := by
  refine ⟨tokenize_withoutComments, ?_, ?_, stripComments_idempotent⟩
  · exact fun _ _ _ hr ha => tokenize_remark hr ha
  · exact fun _ _ h _ ht => not_mem_of_tokenize h ht

/-- A remark with a carriage return, and with parens, quotes and semicolons that would unbalance
the text around it. -/
def unruly : String := " ))( \"don't\" ;; (\r"

/-- The last line of what comes before and the whole of what comes behind it have comments too. -/
theorem comments_are_invisible_unruly :
    tokenize true ("(print (+ 1 ; (\n2)" ++ ";" ++ unruly ++ "\n) ; )") =
        .ok (cut "(print (+ 1 2))".toList) ∧
      ∀ t ∈ cut "(print (+ 1 2))".toList, ';' ∉ t.text.toList := by
  obtain ⟨-, hremark, hsemicolon, -⟩ := comments_are_invisible
  have hplain : tokenize true ("(print (+ 1 ; (\n2)" ++ "\n) ; )") =
      .ok (cut "(print (+ 1 2))".toList) := by
    refine tokenize_eq_ok_iff_balanced.mpr ⟨?_, by decide +kernel⟩
    rw [String.toList_append]
    decide +kernel
  have hunruly := hremark "(print (+ 1 ; (\n2)" unruly "\n) ; )" (by decide) (by simp)
  exact ⟨hunruly.trans hplain, hsemicolon _ _ hplain⟩

end FlatLisp.Lexer
