import FlatLisp.Proofs.Arithmetic.Division
import FlatLisp.Proofs.Arithmetic.Retyping
import Mathlib.Data.List.TakeWhile

/-! Truth. What is false is the empty text and whatever an operator refuses as a zero. -/
namespace FlatLisp
open Integer (sign digits?)

namespace Decimal
variable {c : Char} {cs letters : List Char} {text : String}

/-- The letters, be they capital or small, are a name for infinity or for what is not a number. -/
def IsSpecial (letters : List Char) : Prop :=
  letters.map Char.toLower ∈ ["inf".toList, "infinity".toList, "nan".toList]

/-- The text has nothing to say for a finite number: behind its sign stands a special name, a
numeral for which there is no finite float, or no numeral. -/
inductive NoNumber (text : String) : Prop
  | special : IsSpecial (sign text.toList).2 → NoNumber text
  | tooLarge {d : Decimal} : Integer.read? text = none → unsigned? (sign text.toList).2 = some d →
      d.toFloat? = none → NoNumber text
  | noNumeral : unsigned? (sign text.toList).2 = none → NoNumber text

theorem toLower_of_isDigit (h : c.isDigit) : c.toLower = c := by
  have hsmall : ¬ (c.val ≥ 'A'.val ∧ c.val ≤ 'Z'.val) := by
    simp only [Char.isDigit, Bool.and_eq_true, decide_eq_true_eq] at h
    intro hcapital
    exact absurd (Nat.le_trans hcapital.1 h.2) (by decide)
  exact dif_neg hsmall

theorem exists_of_isSpecial (h : IsSpecial letters) :
    ∃ c rest, letters = c :: rest ∧ ¬ c.isDigit ∧ c ≠ '.' := by
  cases letters with
  | nil => simp [IsSpecial] at h
  | cons c rest =>
    have hfirst : c.toLower = 'i' ∨ c.toLower = 'n' := by
      simp only [IsSpecial, List.map_cons, List.mem_cons, List.not_mem_nil, or_false] at h
      rcases h with h | h | h
      · exact .inl (List.cons.inj h).1
      · exact .inl (List.cons.inj h).1
      · exact .inr (List.cons.inj h).1
    refine ⟨c, rest, rfl, ?_, ?_⟩
    · intro hdigit
      rw [toLower_of_isDigit hdigit] at hfirst
      rcases hfirst with rfl | rfl
      · cases hdigit
      · cases hdigit
    · rintro rfl
      revert hfirst
      decide

theorem unsigned?_of_isSpecial (h : IsSpecial letters) : unsigned? letters = none := by
  obtain ⟨c, rest, rfl, hdigit, hpoint⟩ := exists_of_isSpecial h
  simp [unsigned?, digits?, hdigit, hpoint]

theorem unsigned?_of_digits? {n : Nat} (h : digits? cs = some n) : unsigned? cs = some ⟨n, 0⟩ := by
  have hall : ∀ c ∈ cs, c.isDigit := by
    simp only [digits?, Option.ite_none_right_eq_some, Bool.and_eq_true, List.all_eq_true] at h
    exact h.1.2
  have htake : cs.takeWhile Char.isDigit = cs := List.takeWhile_eq_self_iff.mpr hall
  have hdrop : cs.dropWhile Char.isDigit = [] := List.dropWhile_eq_nil_iff.mpr hall
  simp only [unsigned?, htake, hdrop, List.append_nil, h, exponent?]
  rfl

theorem read?_eq (text : String) :
    read? text = (unsigned? (sign text.toList).2).bind fun d =>
      d.toFloat?.map fun x => if (sign text.toList).1 then -x else x := rfl

theorem ofText?_of_noNumeral (h : unsigned? (sign text.toList).2 = none) :
    Number.ofText? text = none := by
  have hinteger : Integer.read? text = none := by
    cases hd : digits? (sign text.toList).2 with
    | none => simp only [Integer.read?, hd, Option.bind_none]
    | some n => cases (unsigned?_of_digits? hd).symm.trans h
  simp only [Number.ofText?, hinteger, read?_eq, h, Option.bind_none, Option.map_none]

/-- Every other text reads as a number. -/
theorem noNumber_iff : NoNumber text ↔ Number.ofText? text = none := by
  constructor
  · intro h
    cases h with
    | special h => exact ofText?_of_noNumeral (unsigned?_of_isSpecial h)
    | tooLarge hinteger hd hnone =>
      simp only [Number.ofText?, hinteger, read?_eq, hd, Option.bind_some, hnone, Option.map_none]
    | noNumeral h => exact ofText?_of_noNumeral h
  · intro h
    cases hinteger : Integer.read? text with
    | some n => simp [Number.ofText?, hinteger] at h
    | none =>
      cases hd : unsigned? (sign text.toList).2 with
      | none => exact .noNumeral hd
      | some d =>
        refine .tooLarge hinteger hd ?_
        simpa [Number.ofText?, hinteger, read?_eq, hd] using h

end Decimal

namespace Value
variable {v : Value} {text : String}

theorem isTruthy_integer_eq_false_iff (n : Int64) : (integer n).isTruthy = false ↔ n = 0 := by
  simp [isTruthy]

/-- The empty text reads as no number, and it is the only one of these texts that is false. -/
theorem isTruthy_eq_false_iff : v.isTruthy = false ↔ v = .text "" ∨ v.IsZero := by
  rcases reading_cases v with ⟨n, hn, -⟩ | ⟨text, x, rfl, hn, hx, -⟩ | ⟨text, rfl, hn, hx, -⟩
  · have hheld : v.normalized = .integer n := normalized_of_toInteger? hn
    have hne : v ≠ .text "" := by
      rintro rfl
      cases hn
    rw [← isTruthy_normalized, hheld, isTruthy_integer_eq_false_iff]
    simp [IsZero, hn, hne]
  · have hne : text ≠ "" := by
      rintro rfl
      cases hx
    have hread : Integer.read? text = none := hn
    simp [isTruthy, hread, hx, IsZero, hn, hne, bne]
  · have hread : Integer.read? text = none := hn
    simp [isTruthy, hread, hx, IsZero, hn]

theorem IsZero.isNumeric (h : v.IsZero) : v.IsNumeric := by
  rcases h with h | ⟨-, text, x, hv, hx, -⟩
  · exact .inl (by simp [h])
  · exact .inr ⟨text, x, hv, hx⟩

end Value

namespace Operator
variable {op : Operator} {zero : Fault} {v : Value}

theorem apply_one_eq_zero_iff (h : Refuses op zero) (v : Value) :
    op.apply [.integer 1, v] = .error zero ↔ v.IsZero := by
  have hone : (Value.integer 1).IsNumeric := .inl rfl
  rw [apply_eq_zero_iff h]
  constructor
  · rintro ⟨-, w, hw, hzero⟩
    obtain rfl := List.mem_singleton.mp hw
    exact hzero
  · intro hzero
    refine ⟨?_, v, List.mem_singleton_self v, hzero⟩
    simpa using ⟨hone, hzero.isNumeric⟩

/-- A value is false if and only if it is the empty text, or a zero to the operators that refuse
zeros as divisors. A text that reads as infinite, as no number by its name, or as no number at all
is true unless it is empty, and wherever it stands among operands, they are not refused for a
zero. -/
theorem false_iff_empty_or_zero :
    (∀ v : Value,
      (v.isTruthy = false ↔ v = .text "" ∨ div.apply [.integer 1, v] = .error .divisionByZero) ∧
      (v.isTruthy = false ↔ v = .text "" ∨ mod.apply [.integer 1, v] = .error .moduloByZero)) ∧
    ∀ text, Decimal.NoNumber text →
      (text ≠ "" → (Value.text text).isTruthy = true) ∧
      ∀ op zero args, Refuses op zero → .text text ∈ args → op.apply args ≠ .error zero := by
  constructor
  · intro v
    rw [apply_one_eq_zero_iff .div, apply_one_eq_zero_iff .mod, v.isTruthy_eq_false_iff]
    exact ⟨Iff.rfl, Iff.rfl⟩
  · intro text htext
    have hnone : ¬ (Value.text text).IsNumeric := by
      rw [Value.isNumeric_iff, ← Option.isSome_iff_exists]
      simp [Number.ofValue?, Decimal.noNumber_iff.mp htext]
    constructor
    · intro hne
      rw [← Bool.not_eq_false, Value.isTruthy_eq_false_iff]
      rintro (hempty | hzero)
      · exact hne (Value.text.inj hempty)
      · exact hnone hzero.isNumeric
    · intro op zero args hop hmem hzero
      cases args with
      | nil => cases hmem
      | cons first rest => exact hnone (((apply_eq_zero_iff hop first rest).mp hzero).1 _ hmem)

/-- Numerals that are a zero only after rounding or with a sign, the least power of ten that is too
large, and a divisor that is not reached, since the dividend is no number. -/
theorem false_iff_empty_or_zero_extremes :
    (div.apply [.integer 1, .text "1e-400"] = .error .divisionByZero ∧
      mod.apply [.integer 1, .text "-00"] = .error .moduloByZero) ∧
    (Decimal.NoNumber "1e309" ∧ (Value.text "1e309").isTruthy = true) ∧
    Decimal.NoNumber "-iNFinity" ∧
      div.apply [.text "-iNFinity", .integer 0] ≠ .error .divisionByZero := by
  obtain ⟨hfalse, htrue⟩ := false_iff_empty_or_zero
  have hlarge : Decimal.NoNumber "1e309" := by
    have hreading : (Decimal.unsigned? (sign "1e309".toList).2).any (·.toFloat?.isNone) := by
      decide +kernel
    obtain ⟨d, hd, hnone⟩ := (Option.any_eq_true _ _).mp hreading
    exact .tooLarge (by decide +kernel) hd (Option.isNone_iff_eq_none.mp hnone)
  have hspecial : Decimal.NoNumber "-iNFinity" := by
    apply Decimal.NoNumber.special
    unfold Decimal.IsSpecial
    decide +kernel
  refine ⟨⟨?_, ?_⟩, ⟨hlarge, ?_⟩, hspecial, ?_⟩
  · exact ((hfalse (.text "1e-400")).1.mp (by decide +kernel)).resolve_left (by decide)
  · exact ((hfalse (.text "-00")).2.mp (by decide +kernel)).resolve_left (by decide)
  · exact (htrue "1e309" hlarge).1 (by decide)
  · exact (htrue "-iNFinity" hspecial).2 div _ _ .div (by simp)

end Operator
end FlatLisp
