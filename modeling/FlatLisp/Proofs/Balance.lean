import FlatLisp.Proofs.Nesting.Count
import FlatLisp.Proofs.Tree
import FlatLisp.Token.Lexer

/-! Texts whose parens balance. Only they are cut into tokens, and their tokens balance as well. -/
namespace FlatLisp.Lexer
open Nesting

variable {offset depth place : Nat} {c : Char} {text before : List Char} {cause : Imbalance}

/-- The running count of parens goes below zero, or it is not zero at the end. -/
def Unbalanced (text : List Char) : Prop :=
  (∃ before, before <+: text ∧ before.count '(' < before.count ')') ∨
    text.count '(' ≠ text.count ')'

/-- With `depth` parens open before the text, the running count never goes below zero and is zero at
the end. -/
def BalancedFrom (depth : Nat) (text : List Char) : Prop :=
  (∀ before, before <+: text → before.count ')' ≤ depth + before.count '(') ∧
    depth + text.count '(' = text.count ')'

theorem unbalanced_iff : Unbalanced text ↔ ¬ BalancedFrom 0 text := by
  simp only [Unbalanced, BalancedFrom, Nat.zero_add, not_and_or, not_forall, Nat.not_le,
    exists_prop, ne_eq]

/-- With `depth` parens open before the text, the running count never goes below zero. -/
def NeverBelow (depth : Nat) (text : List Char) : Prop :=
  ∀ before, before <+: text → before.count ')' ≤ depth + before.count '('

theorem neverBelow_iff :
    NeverBelow depth text ↔ NeverNegative (· == '(') (· == ')') depth text := Iff.rfl

theorem balancedFrom_iff :
    BalancedFrom depth text ↔ Leaves (· == '(') (· == ')') depth 0 text := Iff.rfl

theorem balancedFrom_nil_iff : BalancedFrom depth [] ↔ depth = 0 := by
  rw [balancedFrom_iff, leaves_nil_iff]

theorem balancedFrom_opening_iff :
    BalancedFrom depth ('(' :: text) ↔ BalancedFrom (depth + 1) text := by
  rw [balancedFrom_iff, balancedFrom_iff, leaves_opening_iff (by simp) (by simp)]

theorem balancedFrom_closing_iff :
    BalancedFrom (depth + 1) (')' :: text) ↔ BalancedFrom depth text := by
  rw [balancedFrom_iff, balancedFrom_iff, leaves_closing_iff (by simp) (by simp)]

theorem not_balancedFrom_closing : ¬ BalancedFrom 0 (')' :: text) := by
  rw [balancedFrom_iff]
  exact not_leaves_closing (by simp) (by simp)

theorem balancedFrom_other_iff (ho : c ≠ '(') (hc : c ≠ ')') :
    BalancedFrom depth (c :: text) ↔ BalancedFrom depth text := by
  rw [balancedFrom_iff, balancedFrom_iff, leaves_other_iff (by simpa using ho) (by simpa using hc)]

/-- The first paren that closes nothing is at a place of the text, counted in bytes. What comes
before it balances. -/
def StrayAt (offset depth : Nat) (text : List Char) (place : Nat) : Prop :=
  ∃ before after, text = before ++ ')' :: after ∧ BalancedFrom depth before ∧
    place = offset + (String.ofList before).utf8ByteSize

theorem StrayAt.cons {next : Nat} (h : StrayAt (offset + c.utf8Size) next text place)
    (hc : ∀ before, BalancedFrom next before → BalancedFrom depth (c :: before)) :
    StrayAt offset depth (c :: text) place := by
  obtain ⟨before, after, rfl, hb, rfl⟩ := h
  exact ⟨c :: before, after, rfl, hc before hb, by simp [Nat.add_assoc]⟩

theorem StrayAt.not_neverBelow (h : StrayAt offset depth text place) : ¬ NeverBelow depth text := by
  intro hnever
  obtain ⟨before, after, rfl, ⟨-, hcount⟩, -⟩ := h
  have hstray := hnever (before ++ [')']) (by simp [List.prefix_append_right_inj])
  simp only [List.count_append, List.count_singleton_self,
    show [')'].count '(' = 0 from rfl] at hstray
  omega

/-- The count ends somewhere, or there is a first paren that closes nothing. -/
theorem imbalanceFrom_cases (offset depth : Nat) (text : List Char) :
    (∃ opened, Leaves (· == '(') (· == ')') depth opened text ∧
      imbalanceFrom offset depth text = if opened = 0 then none else some (.unclosed opened)) ∨
    ∃ place, StrayAt offset depth text place ∧
      imbalanceFrom offset depth text = some (.strayClose place) := by
  induction text generalizing offset depth with
  | nil => exact .inl ⟨depth, leaves_nil_iff.mpr rfl, rfl⟩
  | cons c text ih =>
    by_cases ho : c = '('
    · subst c
      obtain ⟨opened, hl, he⟩ | ⟨place, hs, he⟩ := ih (offset + '('.utf8Size) (depth + 1)
      · exact .inl ⟨opened, (leaves_opening_iff (by simp) (by simp)).mpr hl, he⟩
      · exact .inr ⟨place, hs.cons fun _ => balancedFrom_opening_iff.mpr, he⟩
    · by_cases hc : c = ')'
      · subst c
        cases depth with
        | zero => exact .inr ⟨offset, ⟨[], text, rfl, balancedFrom_nil_iff.mpr rfl, by simp⟩, rfl⟩
        | succ depth =>
          obtain ⟨opened, hl, he⟩ | ⟨place, hs, he⟩ := ih (offset + ')'.utf8Size) depth
          · exact .inl ⟨opened, (leaves_closing_iff (by simp) (by simp)).mpr hl, he⟩
          · exact .inr ⟨place, hs.cons fun _ => balancedFrom_closing_iff.mpr, he⟩
      · simp only [imbalanceFrom, if_neg ho, if_neg hc]
        obtain ⟨opened, hl, he⟩ | ⟨place, hs, he⟩ := ih (offset + c.utf8Size) depth
        · exact .inl ⟨opened, (leaves_other_iff (by simpa) (by simpa)).mpr hl, he⟩
        · exact .inr ⟨place, hs.cons fun _ => (balancedFrom_other_iff ho hc).mpr, he⟩

theorem imbalanceFrom_eq_none_iff :
    imbalanceFrom offset depth text = none ↔ BalancedFrom depth text := by
  obtain ⟨opened, hl, he⟩ | ⟨place, hs, he⟩ := imbalanceFrom_cases offset depth text
  · simp only [he, ite_eq_left_iff, reduceCtorEq, imp_false, Decidable.not_not, balancedFrom_iff]
    constructor
    · rintro rfl
      exact hl
    · exact hl.unique
  · simp only [he, reduceCtorEq, false_iff]
    exact fun hb => hs.not_neverBelow hb.1

theorem unbalanced_iff_imbalance? : Unbalanced text ↔ ∃ cause, imbalance? text = some cause := by
  rw [unbalanced_iff, ← @imbalanceFrom_eq_none_iff 0, ← Option.ne_none_iff_exists']
  rfl

theorem strayAt_of_imbalanceFrom (h : imbalanceFrom offset depth text = some (.strayClose place)) :
    StrayAt offset depth text place := by
  obtain ⟨opened, -, he⟩ | ⟨found, hs, he⟩ := imbalanceFrom_cases offset depth text
  · rw [he] at h
    split at h
    · cases h
    · cases h
  · cases he.symm.trans h
    exact hs

theorem imbalanceFrom_of_balancedFrom (h : BalancedFrom depth before) (after : List Char) :
    imbalanceFrom offset depth (before ++ ')' :: after) =
      some (.strayClose (offset + (String.ofList before).utf8ByteSize)) := by
  induction before generalizing offset depth with
  | nil =>
    obtain rfl := balancedFrom_nil_iff.mp h
    simp [imbalanceFrom]
  | cons c before ih =>
    simp only [List.cons_append, imbalanceFrom, String.ofList_cons, String.utf8ByteSize_append,
      String.utf8ByteSize_singleton, ← Nat.add_assoc]
    split
    · subst c
      exact ih (balancedFrom_opening_iff.mp h)
    · split
      · subst c
        cases depth with
        | zero => exact absurd h not_balancedFrom_closing
        | succ depth => exact ih (balancedFrom_closing_iff.mp h)
      · exact ih ((balancedFrom_other_iff ‹_› ‹_›).mp h)

theorem imbalanceFrom_eq_strayClose_iff :
    imbalanceFrom offset depth text = some (.strayClose place) ↔
      StrayAt offset depth text place := by
  refine ⟨strayAt_of_imbalanceFrom, fun h => ?_⟩
  obtain ⟨before, after, rfl, hb, rfl⟩ := h
  exact imbalanceFrom_of_balancedFrom hb after

theorem imbalanceFrom_eq_unclosed_iff {count : Nat} :
    imbalanceFrom offset depth text = some (.unclosed count) ↔
      NeverBelow depth text ∧ depth + text.count '(' = text.count ')' + count ∧ 0 < count := by
  obtain ⟨opened, hl, he⟩ | ⟨place, hs, he⟩ := imbalanceFrom_cases offset depth text
  · rw [he]
    constructor
    · intro h
      split at h
      · cases h
      · cases h
        exact ⟨hl.1, hl.2, by omega⟩
    · rintro ⟨hnever, hcount, hpos⟩
      obtain rfl : opened = count := hl.unique ⟨hnever, hcount⟩
      rw [if_neg (by omega)]
  · rw [he]
    exact ⟨nofun, fun h => absurd h.1 hs.not_neverBelow⟩

/-- The lexer tells a paren that closes nothing from parens that nothing closes. -/
theorem cause_of_imbalanceFrom (h : imbalanceFrom offset depth text = some cause) :
    (∃ index, cause = .strayClose index) ∨ ∃ count, cause = .unclosed count := by
  obtain ⟨opened, -, he⟩ | ⟨place, -, he⟩ := imbalanceFrom_cases offset depth text
  · rw [he] at h
    split at h
    · cases h
    · exact .inr ⟨opened, (Option.some.inj h).symm⟩
  · exact .inl ⟨place, Option.some.inj (h.symm.trans he)⟩

/-- An atom opens and closes nothing. -/
theorem openAfter_pendingAtom (word : List Char) (ts : List Token) :
    openAfter depth (pendingAtom word ++ ts) = openAfter depth ts := by
  simp only [pendingAtom]
  split
  · rfl
  · simp only [List.singleton_append, openAfter, Token.atom]
    cases Token.isNumber (String.ofList word.reverse).toList <;> rfl

/-- The tokens are counted like the characters. -/
theorem openAfter_cutFrom_iff (word : List Char) {opened : Nat} :
    openAfter depth (cutFrom word text) = some opened ↔
      Leaves (· == '(') (· == ')') depth opened text := by
  induction text generalizing depth word with
  | nil =>
    rw [cutFrom, ← List.append_nil (pendingAtom word), openAfter_pendingAtom, leaves_nil_iff]
    simp [openAfter]
  | cons c text ih =>
    simp only [cutFrom]
    split
    · subst c
      rw [openAfter_pendingAtom, leaves_opening_iff (by simp) (by simp)]
      exact ih []
    · split
      · subst c
        rw [openAfter_pendingAtom]
        cases depth with
        | zero =>
          have hstray : ¬ Leaves (· == '(') (· == ')') 0 opened (')' :: text) :=
            not_leaves_closing (by simp) (by simp)
          simp only [openAfter, Token.closeParen, hstray, reduceCtorEq]
        | succ depth =>
          rw [leaves_closing_iff (by simp) (by simp)]
          exact ih []
      · rw [leaves_other_iff (by simpa) (by simpa)]
        split
        · rw [openAfter_pendingAtom]
          exact ih []
        · exact ih (c :: word)

theorem imbalance?_eq_none_iff : imbalance? text = none ↔ Balanced (cut text) := by
  rw [imbalance?, imbalanceFrom_eq_none_iff, balancedFrom_iff, ← openAfter_cutFrom_iff []]
  rfl

theorem balanced_of_tokenize {comments : Bool} {source : String} {tokens : List Token}
    (h : tokenize comments source = .ok tokens) : Balanced tokens := by
  simp only [tokenize] at h
  split at h
  · cases h
  · obtain rfl := Except.ok.inj h
    exact imbalance?_eq_none_iff.mp ‹_›

end FlatLisp.Lexer
