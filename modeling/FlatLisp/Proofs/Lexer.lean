import FlatLisp.Proofs.Balance
import FlatLisp.Token.Reader
import Mathlib.Data.List.TakeWhile

/-! What the lexer accepts, and the tokens of a text that it accepts: each paren by itself, and the
longest words between parens and blanks. -/
namespace FlatLisp.Lexer

variable {c : Char} {word text rest : List Char} {tokens ts : List Token}

/-- A minus sign or none, and then one or more ASCII digits. -/
def IsNumeral (word : List Char) : Prop :=
  ∃ digits, digits ≠ [] ∧ (∀ d ∈ digits, '0' ≤ d ∧ d ≤ '9') ∧ (word = digits ∨ word = '-' :: digits)

def IsWordChar (c : Char) : Prop := ¬ isBlank c ∧ c ≠ '(' ∧ c ≠ ')'

instance (c : Char) : Decidable (IsWordChar c) :=
  inferInstanceAs (Decidable (¬ isBlank c ∧ c ≠ '(' ∧ c ≠ ')'))

/-- The text does not go on with a word. -/
def EndsWord (text : List Char) : Prop := ∀ c, text.head? = some c → ¬ IsWordChar c

/-- A word that is as long as it can be, in front of a text. -/
structure IsWord (word rest : List Char) : Prop where
  ne_nil : word ≠ []
  chars : ∀ c ∈ word, IsWordChar c
  endsWord : EndsWord rest

/-- The tokens of a text, where every character of it is a paren, a blank or in one of the words. -/
inductive Splits : List Char → List Token → Prop
  | nil : Splits [] []
  | blank {c : Char} {text : List Char} {tokens : List Token} :
      isBlank c → Splits text tokens → Splits (c :: text) tokens
  | opening {text : List Char} {tokens : List Token} :
      Splits text tokens → Splits ('(' :: text) (⟨.opening, "("⟩ :: tokens)
  | closing {text : List Char} {tokens : List Token} :
      Splits text tokens → Splits (')' :: text) (⟨.closing, ")"⟩ :: tokens)
  | number {word rest : List Char} {tokens : List Token} :
      IsWord word rest → IsNumeral word → Splits rest tokens →
      Splits (word ++ rest) (⟨.number, String.ofList word⟩ :: tokens)
  | symbol {word rest : List Char} {tokens : List Token} :
      IsWord word rest → ¬ IsNumeral word → Splits rest tokens →
      Splits (word ++ rest) (⟨.symbol, String.ofList word⟩ :: tokens)

theorem isDigit_iff : c.isDigit ↔ '0' ≤ c ∧ c ≤ '9' := by
  simp [Char.isDigit, Char.le_def]

theorem isWordChar_of_isDigit (h : c.isDigit) : IsWordChar c := by
  have hrange : 48 ≤ c.toNat ∧ c.toNat ≤ 57 := by
    simp only [Char.isDigit, Bool.and_eq_true, decide_eq_true_eq] at h
    exact h
  refine ⟨?_, ?_, ?_⟩
  · simp only [isBlank, blankRanges, List.any_cons, List.any_nil, Bool.or_eq_true, Bool.and_eq_true,
      decide_eq_true_eq, Bool.false_eq_true, or_false]
    omega
  · rintro rfl
    simp at hrange
  · rintro rfl
    simp at hrange

theorem all_isDigit_iff {digits : List Char} :
    (!digits.isEmpty && digits.all Char.isDigit) = true ↔
      digits ≠ [] ∧ ∀ d ∈ digits, '0' ≤ d ∧ d ≤ '9' := by
  simp [isDigit_iff]

/-- A minus sign is no digit, so it is either the sign or in no numeral. -/
theorem isNumber_iff : Token.isNumber word ↔ IsNumeral word := by
  simp only [Token.isNumber, all_isDigit_iff, IsNumeral]
  constructor
  · rintro ⟨hne, hd⟩
    refine ⟨_, hne, hd, ?_⟩
    split
    · obtain ⟨digits, rfl⟩ := List.head?_eq_some_iff.mp ‹_›
      exact .inr rfl
    · exact .inl rfl
  · rintro ⟨digits, hne, hd, rfl | rfl⟩
    · have hsign : word.head? ≠ some '-' := by
        intro h
        have := hd '-' (List.mem_of_head? h)
        exact absurd this (by decide)
      rw [if_neg hsign]
      exact ⟨hne, hd⟩
    · exact ⟨hne, hd⟩

theorem IsNumeral.mem (h : IsNumeral word) (hc : c ∈ word) : c = '-' ∨ c.isDigit := by
  obtain ⟨digits, -, hd, rfl | rfl⟩ := h
  · exact .inr (isDigit_iff.mpr (hd c hc))
  · exact (List.mem_cons.mp hc).imp_right fun hc => isDigit_iff.mpr (hd c hc)

theorem IsNumeral.isWordChar (h : IsNumeral word) (hc : c ∈ word) : IsWordChar c := by
  obtain rfl | hdigit := h.mem hc
  · decide
  · exact isWordChar_of_isDigit hdigit

theorem atom_eq (word : List Char) [Decidable (IsNumeral word)] :
    Token.atom (String.ofList word) =
      ⟨if IsNumeral word then .number else .symbol, String.ofList word⟩ := by
  simp only [Token.atom, String.toList_ofList, isNumber_iff]

section Cut

theorem pendingAtom_nil : pendingAtom [] = [] := rfl

/-- The rest of a word goes to the characters of it that were read. -/
theorem cutFrom_append_word (h : ∀ c ∈ word, IsWordChar c) (before : List Char) :
    cutFrom before (word ++ rest) = cutFrom (word.reverse ++ before) rest := by
  induction word generalizing before with
  | nil => rfl
  | cons c word ih =>
    obtain ⟨⟨hblank, hopen, hclose⟩, hword⟩ := List.forall_mem_cons.mp h
    simp [cutFrom, hopen, hclose, hblank, ih hword]

/-- A word that has been read is an atom once the text does not go on with it. -/
theorem cutFrom_of_endsWord (h : EndsWord text) (before : List Char) :
    cutFrom before text = pendingAtom before ++ cut text := by
  cases text with
  | nil => simp [cutFrom, cut, pendingAtom]
  | cons c text =>
    simp only [cut, cutFrom, pendingAtom_nil, List.nil_append]
    split
    · rfl
    · split
      · rfl
      · have hb : isBlank c := Decidable.byContradiction fun hb => h c rfl ⟨hb, ‹_›, ‹_›⟩
        simp only [hb, if_true]

theorem endsWord_nil : EndsWord [] := by
  intro c h
  cases h

theorem cut_blank (hb : isBlank c) : cut (c :: text) = cut text := by
  have ho : c ≠ '(' := by
    rintro rfl
    exact absurd hb (by decide)
  have hc : c ≠ ')' := by
    rintro rfl
    exact absurd hb (by decide)
  simp [cut, cutFrom, ho, hc, hb, pendingAtom]

theorem cut_of_all_isBlank (h : text.all isBlank) : cut text = [] := by
  induction text with
  | nil => rfl
  | cons c text ih =>
    obtain ⟨hc, htext⟩ := Bool.and_eq_true_iff.mp h
    rw [cut_blank hc, ih htext]

theorem cut_opening : cut ('(' :: text) = .openParen :: cut text := rfl

theorem cut_closing : cut (')' :: text) = .closeParen :: cut text := rfl

theorem cut_word (h : IsWord word rest) :
    cut (word ++ rest) = .atom (String.ofList word) :: cut rest := by
  have hword : cutFrom [] (word ++ rest) = _ := cutFrom_append_word h.chars []
  rw [cut, hword, cutFrom_of_endsWord h.endsWord]
  simp [pendingAtom, h.ne_nil]

theorem cut_of_splits (h : Splits text tokens) : cut text = tokens := by
  classical
  induction h with
  | nil => rfl
  | blank hb _ ih => rw [cut_blank hb, ih]
  | opening _ ih => rw [cut_opening, ih, Token.openParen]
  | closing _ ih => rw [cut_closing, ih, Token.closeParen]
  | number hw hn _ ih => rw [cut_word hw, ih, atom_eq, if_pos hn]
  | symbol hw hn _ ih => rw [cut_word hw, ih, atom_eq, if_neg hn]

theorem Splits.atom (hw : IsWord word rest) (h : Splits rest tokens) :
    Splits (word ++ rest) (.atom (String.ofList word) :: tokens) := by
  classical
  rw [atom_eq]
  split
  · exact .number hw ‹_› h
  · exact .symbol hw ‹_› h

/-- The word whose characters were read, the last one first, may be none. -/
theorem Splits.pendingAtom {before : List Char} (hb : ∀ c ∈ before, IsWordChar c)
    (he : EndsWord text) (h : Splits text tokens) :
    Splits (before.reverse ++ text) (pendingAtom before ++ tokens) := by
  simp only [Lexer.pendingAtom]
  split
  · obtain rfl : before = [] := by simpa using ‹before.isEmpty = true›
    exact h
  · refine .atom ⟨?_, ?_, he⟩ h
    · simpa using ‹¬ before.isEmpty = true›
    · simpa using hb

theorem splits_cutFrom (before text : List Char) (hb : ∀ c ∈ before, IsWordChar c) :
    Splits (before.reverse ++ text) (cutFrom before text) := by
  induction text generalizing before with
  | nil => simpa [cutFrom] using Splits.pendingAtom hb endsWord_nil .nil
  | cons c text ih =>
    have hnext : Splits text (cutFrom [] text) := ih [] (by simp)
    have hends : ¬ IsWordChar c → EndsWord (c :: text) := by
      rintro hc d ⟨⟩
      exact hc
    simp only [cutFrom]
    split
    · subst c
      exact .pendingAtom hb (hends (by simp [IsWordChar])) (.opening hnext)
    · split
      · subst c
        exact .pendingAtom hb (hends (by simp [IsWordChar])) (.closing hnext)
      · split
        · exact .pendingAtom hb (hends fun hc => hc.1 ‹_›) (.blank ‹_› hnext)
        · have hc : IsWordChar c := ⟨‹_›, ‹_›, ‹_›⟩
          simpa using ih (c :: before) (List.forall_mem_cons.mpr ⟨hc, hb⟩)

theorem splits_iff : Splits text tokens ↔ cut text = tokens := by
  refine ⟨cut_of_splits, ?_⟩
  rintro rfl
  exact splits_cutFrom [] text (by simp)

end Cut

section Readers

theorem takesAll_takeWhile1 (p : Char → Bool) (text : List Char) :
    (Reader.takeWhile1 p).takesAll text = (!text.isEmpty && text.all p) := by
  cases text with
  | nil => rfl
  | cons c text =>
    cases hc : p c with
    | false => simp [Reader.takesAll, Reader.takeWhile1, hc]
    | true =>
      rw [Bool.eq_iff_iff]
      simp [Reader.takesAll, Reader.takeWhile1, Reader.takeWhile, hc]

theorem takesAll_numeral (text : List Char) : numeral.takesAll text = Token.isNumber text := by
  have hdigits := takesAll_takeWhile1 Char.isDigit
  cases text with
  | nil => rfl
  | cons c text =>
    by_cases hc : c = '-'
    · subst c
      exact hdigits text
    · have hsign : Reader.char '-' (c :: text) = none := if_neg hc
      have htakes : numeral.takesAll (c :: text) =
          (Reader.takeWhile1 Char.isDigit).takesAll (c :: text) := by
        simp only [Reader.takesAll, numeral, Reader.preceded, Reader.optional, Reader.orElse,
          Reader.map, hsign, Option.map_none, Option.none_or, Option.bind_some]
      rw [htakes, hdigits]
      simp [Token.isNumber, hc]

theorem inWord_iff : inWord c ↔ IsWordChar c := by
  simp [inWord, IsWordChar, and_assoc]

theorem isWord_takeWhile (hc : IsWordChar c) (text : List Char) :
    IsWord ((c :: text).takeWhile inWord) ((c :: text).dropWhile inWord) where
  ne_nil := by simp [inWord_iff.mpr hc]
  chars d hd := inWord_iff.mp (List.mem_takeWhile_imp hd)
  endsWord d hd := by
    have h := List.head?_dropWhile_not inWord (c :: text)
    rw [hd] at h
    rw [← inWord_iff]
    simpa using h

theorem word_of_isWordChar (hc : IsWordChar c) (text : List Char) :
    Lexer.word (c :: text) = some (.atom (String.ofList ((c :: text).takeWhile inWord)),
      (c :: text).dropWhile inWord) := by
  have hne : ((c :: text).takeWhile inWord).isEmpty = false := by
    simpa using (isWord_takeWhile hc text).ne_nil
  simp only [Lexer.word, Reader.map, Reader.takeWhile1, hne, Reader.takeWhile, takesAll_numeral,
    Token.atom, String.toList_ofList]
  rfl

theorem token_blank (hb : isBlank c) (text : List Char) : token (c :: text) = token text := by
  simp only [token, Reader.preceded, Reader.takeWhile, List.dropWhile_cons, hb, if_true,
    Option.bind_some]

/-- The reader of tokens refuses blanks, and takes the first token of any other text. -/
theorem token_cases (text : List Char) :
    (token text = none ∧ text.all isBlank) ∨
      ∃ t rest, token text = some (t, rest) ∧ rest.length < text.length ∧
        cut text = t :: cut rest := by
  induction text with
  | nil => exact .inl ⟨rfl, rfl⟩
  | cons c text ih =>
    by_cases hb : isBlank c
    · rw [token_blank hb, cut_blank hb]
      obtain ⟨hnone, hall⟩ | ⟨t, rest, ht, hl, hcut⟩ := ih
      · exact .inl ⟨hnone, by simp [hb, hall]⟩
      · exact .inr ⟨t, rest, ht, Nat.lt_succ_of_lt hl, hcut⟩
    · refine .inr ?_
      have hskip : (c :: text).dropWhile isBlank = c :: text := by simp [hb]
      simp only [token, Reader.preceded, Reader.takeWhile, hskip, Option.bind_some, Reader.orElse,
        Reader.map, Reader.char]
      by_cases ho : c = '('
      · subst c
        exact ⟨.openParen, text, rfl, Nat.lt_succ_self _, cut_opening⟩
      · by_cases hp : c = ')'
        · subst c
          exact ⟨.closeParen, text, rfl, Nat.lt_succ_self _, cut_closing⟩
        · have hc : IsWordChar c := ⟨hb, ho, hp⟩
          have hword := isWord_takeWhile hc text
          have hall := List.takeWhile_append_dropWhile (p := inWord) (l := c :: text)
          rw [if_neg ho, if_neg hp, word_of_isWordChar hc]
          refine ⟨_, _, rfl, ?_, ?_⟩
          · have hlength := congrArg List.length hall
            have := List.length_pos_iff.mpr hword.ne_nil
            rw [List.length_append] at hlength
            omega
          · rw [← cut_word hword, hall]

theorem many_token (text : List Char) :
    ∃ rest, token.many text = some (cut text, rest) ∧ rest.all isBlank := by
  induction h : text.length using Nat.strongRecOn generalizing text with
  | ind n ih =>
    subst h
    rw [Reader.many]
    obtain ⟨hnone, hall⟩ | ⟨t, rest, ht, hl, hcut⟩ := token_cases text
    · refine ⟨text, ?_, hall⟩
      rw [hnone, cut_of_all_isBlank hall]
    · obtain ⟨last, hmany, hlast⟩ := ih rest.length hl rest rfl
      refine ⟨last, ?_, hlast⟩
      simp only [ht, if_pos hl, hmany, hcut, Option.map_some]

theorem readTokens_eq (comments : Bool) (source : String) :
    readTokens comments source = tokenize comments source := by
  simp only [readTokens, tokenize]
  generalize (if comments then stripComments source.toList else source.toList) = text
  obtain ⟨rest, hmany, hrest⟩ := many_token text
  cases imbalance? text with
  | some cause => rfl
  | none => simp only [hmany, hrest, if_true]

end Readers

theorem tokenize_eq_ok_iff {source : String} :
    tokenize false source = .ok tokens ↔
      BalancedFrom 0 source.toList ∧ Splits source.toList tokens := by
  rw [splits_iff, ← @imbalanceFrom_eq_none_iff 0, ← imbalance?]
  simp only [tokenize, Bool.false_eq_true, if_false]
  cases imbalance? source.toList <;> simp

theorem tokenize_eq_error_iff {source : String} {f : Fault} :
    tokenize false source = .error f ↔
      ∃ cause, imbalance? source.toList = some cause ∧ f = .unbalanced cause := by
  simp only [tokenize, Bool.false_eq_true, if_false]
  cases imbalance? source.toList <;> simp [eq_comm]

/-- In a source, the text before a paren is a text of its own. -/
theorem strayAt_iff {source : String} {place : Nat} :
    StrayAt 0 0 source.toList place ↔
      ∃ before after : String, source = before ++ ")" ++ after ∧ BalancedFrom 0 before.toList ∧
        place = before.utf8ByteSize := by
  constructor
  · rintro ⟨before, after, hsource, hb, rfl⟩
    refine ⟨String.ofList before, String.ofList after, ?_, by simpa using hb, by simp⟩
    rw [← String.toList_inj, hsource]
    simp
  · rintro ⟨before, after, rfl, hb, rfl⟩
    exact ⟨before.toList, after.toList, by simp, hb, by simp⟩

/-- A text, none of whose comments are left out, is cut into tokens if and only if its parens
balance, and then into those that it splits into. If they do not, the error has the place in bytes
of the first paren that closes nothing or, where there is none, the number of parens that nothing
closes. The readers come to the same, since only blanks are ever left and some of the text is taken
each time. -/
theorem tokenize_splits_balanced (source : String) :
    ((∃ tokens, tokenize false source = .ok tokens) ↔ BalancedFrom 0 source.toList) ∧
    (∀ tokens, tokenize false source = .ok tokens → Splits source.toList tokens ∧
      ∀ others, Splits source.toList others → others = tokens) ∧
    (∀ f, tokenize false source = .error f ↔
      (∃ before after : String, source = before ++ ")" ++ after ∧ BalancedFrom 0 before.toList ∧
        f = .unbalanced (.strayClose before.utf8ByteSize)) ∨
      ∃ count, 0 < count ∧ NeverBelow 0 source.toList ∧
        source.toList.count '(' = source.toList.count ')' + count ∧
        f = .unbalanced (.unclosed count)) ∧
    readTokens false source = tokenize false source ∧
    ∀ cause, readTokens false source ≠ .error (.malformed cause) := by
  refine ⟨?_, ?_, ?_, readTokens_eq false source, ?_⟩
  · constructor
    · rintro ⟨tokens, ht⟩
      exact (tokenize_eq_ok_iff.mp ht).1
    · intro hb
      exact ⟨_, tokenize_eq_ok_iff.mpr ⟨hb, splits_iff.mpr rfl⟩⟩
  · intro tokens ht
    obtain ⟨-, hs⟩ := tokenize_eq_ok_iff.mp ht
    refine ⟨hs, fun others ho => ?_⟩
    rw [← cut_of_splits hs, cut_of_splits ho]
  · intro f
    rw [tokenize_eq_error_iff]
    constructor
    · rintro ⟨cause, hc, rfl⟩
      obtain ⟨place, rfl⟩ | ⟨count, rfl⟩ := cause_of_imbalanceFrom hc
      · obtain ⟨before, after, hsource, hb, rfl⟩ :=
          strayAt_iff.mp (imbalanceFrom_eq_strayClose_iff.mp hc)
        exact .inl ⟨before, after, hsource, hb, rfl⟩
      · obtain ⟨hn, he, hpos⟩ := imbalanceFrom_eq_unclosed_iff.mp hc
        exact .inr ⟨count, hpos, hn, by omega, rfl⟩
    · rintro (⟨before, after, hsource, hb, rfl⟩ | ⟨count, hpos, hn, he, rfl⟩)
      · exact ⟨_, imbalanceFrom_eq_strayClose_iff.mpr
          (strayAt_iff.mpr ⟨before, after, hsource, hb, rfl⟩), rfl⟩
      · exact ⟨_, imbalanceFrom_eq_unclosed_iff.mpr ⟨hn, by omega, hpos⟩, rfl⟩
  · intro cause h
    rw [readTokens_eq, tokenize_eq_error_iff] at h
    obtain ⟨_, -, hf⟩ := h
    cases hf

example : tokenize false "(é))" = .error (.unbalanced (.strayClose 4)) := by
  decide +kernel

end FlatLisp.Lexer
