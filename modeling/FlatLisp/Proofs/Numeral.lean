import FlatLisp.Numeral.Integer
import FlatLisp.Proofs.Rendering

/-! Integers as text. A numeral of any length is read as the integer that it stands for, if that has
64 bits, and what is written for an integer is a numeral that stands for it. -/
namespace FlatLisp
open Lexer

namespace Integer
variable {digits : List Char} {text : String}

/-- Each digit counts by the power of ten of its place. -/
def placeValue : List Char → Nat
  | [] => 0
  | c :: digits => (c.toNat - '0'.toNat) * Nat.pow 10 digits.length + placeValue digits

/-- The integer that a numeral stands for, be it of 64 bits or not. -/
def ofNumeral : List Char → Int
  | '-' :: digits => -placeValue digits
  | digits => placeValue digits

theorem ofDigitChars_eq_placeValue (digits : List Char) :
    Nat.ofDigitChars 10 digits 0 = placeValue digits := by
  induction digits with
  | nil => rfl
  | cons c digits ih =>
    rw [Nat.ofDigitChars_cons, Nat.ofDigitChars_eq_ofDigitChars_zero, ih, placeValue, Nat.mul_zero,
      Nat.zero_add, Nat.mul_comm]
    rfl

theorem digits?_eq_placeValue (hne : digits ≠ []) (h : ∀ c ∈ digits, c.isDigit) :
    digits? digits = some (placeValue digits) := by
  have hall : digits.all Char.isDigit := List.all_eq_true.mpr h
  simp [digits?, hall, hne, ofDigitChars_eq_placeValue]

/-- A minus sign is no digit. -/
theorem not_sign_of_isDigit (h : ∀ c ∈ digits, c.isDigit) :
    sign digits = (false, digits) ∧ ofNumeral digits = placeValue digits := by
  have hnot : ∀ {c rest}, digits = c :: rest → c.isDigit := fun he =>
    h _ (he ▸ List.mem_cons_self ..)
  constructor
  · simp only [sign]
    split
    · exact absurd (hnot rfl) (by decide)
    · exact absurd (hnot rfl) (by decide)
    · rfl
  · simp only [ofNumeral]
    split
    · exact absurd (hnot rfl) (by decide)
    · rfl

theorem read?_of_sign {negative : Bool} {n : Nat} (hsign : sign text.toList = (negative, digits))
    (hn : digits? digits = some n) : read? text = fit? (if negative then -n else n) := by
  simp only [read?, hsign, hn, Option.bind_some]

theorem read?_of_isNumeral (h : IsNumeral text.toList) :
    read? text = fit? (ofNumeral text.toList) := by
  obtain ⟨digits, hne, hd, h⟩ := h
  have hdigits : ∀ c ∈ digits, c.isDigit := fun c hc => isDigit_iff.mpr (hd c hc)
  have hvalue := digits?_eq_placeValue hne hdigits
  obtain h | h := h
  · obtain ⟨hsign, hof⟩ := not_sign_of_isDigit hdigits
    rw [read?_of_sign ((congrArg sign h).trans hsign) hvalue, h, hof, if_neg Bool.false_ne_true]
  · have hsign : sign text.toList = (true, digits) := congrArg sign h
    rw [read?_of_sign hsign hvalue, h, ofNumeral, if_pos rfl]

theorem isDigit_toDigits {n : Nat} {c : Char} (h : c ∈ Nat.toDigits 10 n) : c.isDigit :=
  Nat.isDigit_of_mem_toDigits (by decide) (Nat.le_refl 10) h

theorem placeValue_toDigits (n : Nat) : placeValue (Nat.toDigits 10 n) = n := by
  rw [← ofDigitChars_eq_placeValue, Nat.ofDigitChars_ten_toDigits]

/-- The text of an integer is its digits, behind a minus sign if it is negative. -/
theorem toList_render (n : Int64) :
    (0 ≤ n.toInt ∧ (render n).toList = Nat.toDigits 10 n.toInt.natAbs) ∨
      (n.toInt < 0 ∧ (render n).toList = '-' :: Nat.toDigits 10 n.toInt.natAbs) := by
  simp only [render, Int.toString_eq_repr, Int.repr_eq_if]
  split
  · rename_i h
    refine .inl ⟨h, ?_⟩
    rw [Nat.toList_repr, show n.toInt.toNat = n.toInt.natAbs by omega]
  · rename_i h
    refine .inr ⟨Int.not_le.mp h, ?_⟩
    rw [String.toList_append, Nat.toList_repr,
      show (-n.toInt).toNat = n.toInt.natAbs by omega]
    rfl

theorem isNumeral_render (n : Int64) : IsNumeral (render n).toList := by
  refine ⟨Nat.toDigits 10 n.toInt.natAbs, Nat.toDigits_ne_nil, fun d hd =>
    isDigit_iff.mp (isDigit_toDigits hd), ?_⟩
  obtain ⟨-, h⟩ | ⟨-, h⟩ := toList_render n
  · exact .inl h
  · exact .inr h

theorem ofNumeral_render (n : Int64) : ofNumeral (render n).toList = n.toInt := by
  obtain ⟨hn, h⟩ | ⟨hn, h⟩ := toList_render n
  · rw [h, (not_sign_of_isDigit fun c hc => isDigit_toDigits hc).2, placeValue_toDigits]
    omega
  · rw [h, ofNumeral, placeValue_toDigits]
    omega

theorem read?_render (n : Int64) : read? (render n) = some n := by
  rw [read?_of_isNumeral (isNumeral_render n), ofNumeral_render, fit?_toInt]

end Integer

namespace Lexer.IsNumeral
variable {word : List Char} {text : String}

/-- No numeral has the start of a comment in it. -/
theorem not_mem (h : IsNumeral word) : ';' ∉ word := by
  intro hmem
  obtain hc | hc := h.mem hmem <;> revert hc <;> decide

theorem atom_eq (h : IsNumeral text.toList) : Token.atom text = ⟨.number, text⟩ := by
  rw [Token.atom, if_pos (isNumber_iff.mpr h)]

theorem wellSpelled (h : IsNumeral text.toList) : (⟨.number, text⟩ : Token).WellSpelled := by
  rw [← h.atom_eq]
  refine .atom ?_ fun c hc => h.isWordChar hc
  rintro rfl
  obtain ⟨digits, hne, -, h | h⟩ := h
  · exact hne h.symm
  · cases h

theorem readable (h : IsNumeral text.toList) (comments : Bool) :
    Readable comments ⟨.number, text⟩ :=
  ⟨h.wellSpelled, fun _ => h.not_mem⟩

end Lexer.IsNumeral

end FlatLisp
