import FlatLisp.Proofs.Lines
import Mathlib.Data.Bool.AllAny

/-! Tokens as text. What is written is read as the same tokens again, since the only pairs that are
written without a space are those that a paren keeps apart. -/
namespace FlatLisp

open Lexer Nesting

/-- A token that a text can have: a paren as it is written, or a word with the kind of such
words. -/
inductive Token.WellSpelled : Token → Prop
  | opening : WellSpelled ⟨.opening, "("⟩
  | closing : WellSpelled ⟨.closing, ")"⟩
  | atom {text : String} :
      text ≠ "" → (∀ c ∈ text.toList, IsWordChar c) → WellSpelled (.atom text)

variable {c : Char} {text : List Char} {tokens : List Token} {t : Token} {comments inside : Bool}
  {source : String} {before : Token.Kind}

namespace Token

theorem toList_render (tokens : List Token) :
    (render tokens).toList = (pieces .opening tokens).flatMap String.toList := String.toList_join

theorem kind_atom_ne (text : String) :
    (atom text).kind ≠ .opening ∧ (atom text).kind ≠ .closing := by
  simp only [atom]
  split <;> simp

/-- All that is written besides the tokens is spaces. -/
theorem mem_pieces (h : c ∈ (pieces before tokens).flatMap String.toList) :
    c = ' ' ∨ ∃ t ∈ tokens, c ∈ t.text.toList := by
  induction tokens generalizing before with
  | nil => simp [pieces] at h
  | cons t tokens ih =>
    simp only [pieces, List.flatMap_cons, List.mem_append] at h
    obtain hgap | htext | hrest := h
    · simp only [gap] at hgap
      split at hgap
      · simp at hgap
      · exact .inl (by simpa using hgap)
    · exact .inr ⟨t, by simp, htext⟩
    · obtain hspace | ⟨u, hu, hc⟩ := ih hrest
      · exact .inl hspace
      · exact .inr ⟨u, by simp [hu], hc⟩

theorem mem_render (h : c ∈ (render tokens).toList) :
    c = ' ' ∨ ∃ t ∈ tokens, c ∈ t.text.toList := by
  rw [toList_render] at h
  exact mem_pieces h

/-- Behind an atom comes a space or a paren. -/
theorem endsWord_pieces (hk : before ≠ .opening) (h : ∀ t ∈ tokens, t.WellSpelled) :
    EndsWord ((pieces before tokens).flatMap String.toList) := by
  cases tokens with
  | nil => exact endsWord_nil
  | cons t tokens =>
    have hspace : ∀ rest, EndsWord (' ' :: rest) := by
      rintro rest d ⟨⟩ hd
      exact hd.1 (by decide)
    simp only [pieces, List.flatMap_cons, gap, hk, decide_false, Bool.false_or, decide_eq_true_eq]
    cases h t (by simp) with
    | opening => exact hspace _
    | closing =>
      rintro d ⟨⟩ hd
      exact hd.2.2 rfl
    | @atom word _ _ =>
      rw [if_neg (kind_atom_ne word).2]
      exact hspace _

theorem cut_gap (before : Kind) (t : Token) (text : List Char) :
    cut ((gap before t).toList ++ text) = cut text := by
  simp only [gap]
  split
  · rfl
  · exact cut_blank (by decide)

/-- Each token is cut off before the next one, whatever that is. -/
theorem cut_pieces (before : Kind) (h : ∀ t ∈ tokens, t.WellSpelled) :
    cut ((pieces before tokens).flatMap String.toList) = tokens := by
  induction tokens generalizing before with
  | nil => rfl
  | cons t tokens ih =>
    have hrest : ∀ u ∈ tokens, u.WellSpelled := fun u hu => h u (by simp [hu])
    simp only [pieces, List.flatMap_cons]
    rw [cut_gap]
    cases h t (by simp) with
    | opening => exact congrArg (List.cons _) (ih .opening hrest)
    | closing => exact congrArg (List.cons _) (ih .closing hrest)
    | @atom word hne hword =>
      have hends := endsWord_pieces (kind_atom_ne word).1 hrest
      have hcut := cut_word ⟨by simpa using hne, hword, hends⟩
      rw [String.ofList_toList, ih _ hrest] at hcut
      exact hcut

theorem cut_render (h : ∀ t ∈ tokens, t.WellSpelled) : cut (render tokens).toList = tokens := by
  rw [toList_render]
  exact cut_pieces .opening h

end Token

namespace Lexer

theorem stripFrom_of_not_mem (h : ';' ∉ text) : stripFrom false text = text := by
  induction text with
  | nil => rfl
  | cons c text ih =>
    obtain ⟨hc, htext⟩ : ';' ≠ c ∧ ';' ∉ text := by simpa using h
    by_cases hn : c = '\n'
    · subst c
      simp [stripFrom, ih htext]
    · simp [stripFrom, ih htext, hc.symm]

theorem not_mem_stripFrom (inside : Bool) (text : List Char) : ';' ∉ stripFrom inside text := by
  induction text generalizing inside with
  | nil => simp [stripFrom]
  | cons c text ih =>
    by_cases hn : c = '\n'
    · subst c
      simp [stripFrom, ih false]
    · simp only [stripFrom]
      split
      · exact ih true
      · rename_i hc
        have hne : ';' ≠ c := by
          rintro rfl
          simp at hc
        simp [ih false, hne]

/-- The characters of the tokens are those of the text. -/
theorem Splits.mem_text (h : Splits text tokens) (ht : t ∈ tokens) (hc : c ∈ t.text.toList) :
    c ∈ text := by
  induction h with
  | nil => simp at ht
  | blank _ _ ih => exact .tail _ (ih ht)
  | opening _ ih | closing _ ih =>
    obtain rfl | ht := List.mem_cons.mp ht
    · simpa using Or.inl hc
    · exact .tail _ (ih ht)
  | number _ _ _ ih | symbol _ _ _ ih =>
    obtain rfl | ht := List.mem_cons.mp ht
    · exact List.mem_append_left _ (by simpa using hc)
    · exact List.mem_append_right _ (ih ht)

theorem IsWord.wellSpelled {word rest : List Char} (h : IsWord word rest) :
    (Token.atom (String.ofList word)).WellSpelled := by
  refine .atom ?_ (by simpa using h.chars)
  simpa using h.ne_nil

theorem Splits.wellSpelled (h : Splits text tokens) : ∀ t ∈ tokens, t.WellSpelled := by
  classical
  induction h with
  | nil => simp
  | blank _ _ ih => exact ih
  | opening _ ih => exact List.forall_mem_cons.mpr ⟨.opening, ih⟩
  | closing _ ih => exact List.forall_mem_cons.mpr ⟨.closing, ih⟩
  | number hw hn _ ih | symbol hw hn _ ih =>
    have hfirst := hw.wellSpelled
    simp only [atom_eq, hn, if_true, if_false] at hfirst
    exact List.forall_mem_cons.mpr ⟨hfirst, ih⟩

theorem wellSpelled_of_tokenize (h : tokenize comments source = .ok tokens) :
    ∀ t ∈ tokens, t.WellSpelled := by
  obtain ⟨hcut, -⟩ := tokenize_eq_ok_iff_balanced.mp h
  exact (splits_iff.mpr hcut).wellSpelled

/-- A language with comments has no semicolon in its tokens. -/
theorem not_mem_of_tokenize (h : tokenize true source = .ok tokens) (ht : t ∈ tokens) :
    ';' ∉ t.text.toList := by
  obtain ⟨hcut, -⟩ := tokenize_eq_ok_iff_balanced.mp h
  intro hc
  exact not_mem_stripFrom false source.toList ((splits_iff.mpr hcut).mem_text ht hc)

theorem tokenize_render_of_wellSpelled (hb : Balanced tokens) (h : ∀ t ∈ tokens, t.WellSpelled)
    (hc : comments = true → ∀ t ∈ tokens, ';' ∉ t.text.toList) :
    tokenize comments (Token.render tokens) = .ok tokens := by
  refine tokenize_eq_ok_iff_balanced.mpr ⟨?_, hb⟩
  cases comments with
  | false => exact Token.cut_render h
  | true =>
    have hnone : ';' ∉ (Token.render tokens).toList := by
      intro hmem
      obtain hspace | ⟨t, ht, hsemicolon⟩ := Token.mem_render hmem
      · exact absurd hspace (by decide)
      · exact hc rfl t ht hsemicolon
    simp only [tokensOf, code, if_true, stripComments, stripFrom_of_not_mem hnone]
    exact Token.cut_render h

/-- A token that a source can have, in a language with comments or in one without. -/
structure Readable (comments : Bool) (t : Token) : Prop where
  spelled : t.WellSpelled
  plain : comments = true → ';' ∉ t.text.toList

theorem readable_openParen : Readable comments .openParen := ⟨.opening, fun _ => by decide⟩

theorem readable_closeParen : Readable comments .closeParen := ⟨.closing, fun _ => by decide⟩

theorem readable_of_tokenize (h : tokenize comments source = .ok tokens) (ht : t ∈ tokens) :
    Readable comments t := by
  refine ⟨wellSpelled_of_tokenize h t ht, ?_⟩
  rintro rfl
  exact not_mem_of_tokenize h ht

theorem tokenize_render_of_readable (hb : Balanced tokens) (h : ∀ t ∈ tokens, Readable comments t) :
    tokenize comments (Token.render tokens) = .ok tokens :=
  tokenize_render_of_wellSpelled hb (fun t ht => (h t ht).spelled) fun hc t ht => (h t ht).plain hc

/-- Balanced tokens that a text can have are read back as they were written, also in a language with
comments if they have no semicolon. All tokens that are read from a text are such ones. So to read,
write and read again is to read once, and what is written then is written the same way again. -/
theorem tokenize_render :
    (∀ tokens, Balanced tokens → (∀ t ∈ tokens, t.WellSpelled) →
      tokenize false (Token.render tokens) = .ok tokens ∧
      ((∀ t ∈ tokens, ';' ∉ t.text.toList) →
        tokenize true (Token.render tokens) = .ok tokens)) ∧
    ∀ comments source tokens, tokenize comments source = .ok tokens →
      Balanced tokens ∧ (∀ t ∈ tokens, t.WellSpelled) ∧
      tokenize comments (Token.render tokens) = .ok tokens ∧
      ∀ again, tokenize comments (Token.render tokens) = .ok again →
        Token.render again = Token.render tokens := by
  refine ⟨?_, ?_⟩
  · intro tokens hb h
    refine ⟨tokenize_render_of_wellSpelled hb h nofun, fun hc => ?_⟩
    exact tokenize_render_of_wellSpelled hb h fun _ => hc
  · intro comments source tokens ht
    have hb := balanced_of_tokenize ht
    have h := wellSpelled_of_tokenize ht
    have hback : tokenize comments (Token.render tokens) = .ok tokens := by
      refine tokenize_render_of_wellSpelled hb h ?_
      rintro rfl t hmem
      exact not_mem_of_tokenize ht hmem
    refine ⟨hb, h, hback, fun again hagain => ?_⟩
    obtain rfl : tokens = again := Except.ok.inj (hback.symm.trans hagain)
    rfl

/-- Tokens that were never in a text. -/
def composed : List Token :=
  [.openParen, .atom "+5", .openParen, .closeParen, .atom "-7", .atom "é", .closeParen]

/-- A text with a comment that has a paren, and with blanks where none are needed. -/
def scribbled : String := "(defun f(x);)\n( + x -12 ))(f\t3 )"

theorem tokenize_composed_scribbled :
    tokenize false (Token.render composed) = .ok composed ∧
    ∃ tokens, tokenize true scribbled = .ok tokens ∧
      Token.render tokens = "(defun f (x) (+ x -12)) (f 3)" ∧
      tokenize true (Token.render tokens) = .ok tokens := by
  have hb : Balanced composed := by decide
  have hspelled : ∀ t ∈ composed, t.WellSpelled := by
    simp only [composed, List.forall_mem_cons]
    refine ⟨.opening, .atom (by decide) ?_, .opening, .closing, .atom (by decide) ?_,
      .atom (by decide) ?_, .closing, nofun⟩
    all_goals exact List.all_iff_forall_prop.mp (by decide)
  obtain ⟨hback, -⟩ := tokenize_render.1 composed hb hspelled
  refine ⟨hback, ?_⟩
  have hread : tokenize true scribbled = .ok (tokensOf true scribbled.toList) := by
    decide +kernel
  obtain ⟨-, -, hagain, -⟩ := tokenize_render.2 true scribbled _ hread
  exact ⟨_, hread, by decide +kernel, hagain⟩

end Lexer
end FlatLisp
