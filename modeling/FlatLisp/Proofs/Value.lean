import FlatLisp.Proofs.Message
import FlatLisp.Proofs.Numeral

/-! The texts that values have. Numbers are written without blanks and parens, and a text that reads
as an integer is not kept as a text. -/
namespace FlatLisp
open Lexer

variable {text : String} {c : Char} {v : Value}

namespace Decimal

theorem mem_positional {d : Decimal} (h : c ∈ d.positional) : c.isDigit ∨ c = '.' := by
  have hdigit : ∀ c ∈ Nat.toDigits 10 d.digits, c.isDigit := fun c hc =>
    Nat.isDigit_of_mem_toDigits (by decide) (by decide) hc
  have hzero : ∀ n, ∀ c ∈ List.replicate n '0', c.isDigit := by
    intro n c hc
    obtain rfl := List.eq_of_mem_replicate hc
    rfl
  simp only [positional] at h
  split at h
  · rename_i e _
    obtain hc | hc := List.mem_append.mp h
    · exact .inl (hdigit c hc)
    · exact .inl (hzero e c hc)
  · rename_i e _
    have hpadded : ∀ c ∈ List.replicate (e + 2 - (Nat.toDigits 10 d.digits).length) '0' ++
        Nat.toDigits 10 d.digits, c.isDigit := by
      intro c hc
      exact (List.mem_append.mp hc).elim (hzero _ c) (hdigit c)
    obtain hc | hc := List.mem_append.mp h
    · exact .inl (hpadded c (List.mem_of_mem_take hc))
    · obtain rfl | hc := List.mem_cons.mp hc
      · exact .inr rfl
      · exact .inl (hpadded c (List.mem_of_mem_drop hc))

/-- A float is written with digits, a point and a minus sign. -/
theorem mem_render {x : Float} (h : c ∈ (render x).toList) : c.isDigit ∨ c = '.' ∨ c = '-' := by
  have hsize : ∀ c ∈ (if (Binary64.ofFloat x).mantissa = 0 then ['0']
      else (shortest (Binary64.ofFloat x)).positional), c.isDigit ∨ c = '.' := by
    intro c hc
    split at hc
    · obtain rfl := List.mem_singleton.mp hc
      exact .inl rfl
    · exact mem_positional hc
  simp only [render, String.toList_ofList] at h
  split at h
  · obtain rfl | hc := List.mem_cons.mp h
    · exact .inr (.inr rfl)
    · exact (hsize c hc).imp id .inl
  · exact (hsize c h).imp id .inl

end Decimal

namespace Value

/-- A text in the value has no blanks and no parens. -/
def Solid (v : Value) : Prop := ∀ text, v = .text text → ∀ c ∈ text.toList, IsWordChar c

/-- A text in the value does not read as an integer. -/
def Typed (v : Value) : Prop := ∀ text, v = .text text → Integer.read? text = none

theorem solid_integer (n : Int64) : Solid (.integer n) := nofun

theorem solid_text (h : ∀ c ∈ text.toList, IsWordChar c) : Solid (.text text) := by
  rintro _ ⟨⟩
  exact h

theorem solid_empty : Solid .empty := by
  rintro _ ⟨⟩ c hc
  simp at hc

theorem Solid.normalized (h : v.Solid) : v.normalized.Solid := by
  cases v with
  | integer n => exact h
  | text s =>
    simp only [Value.normalized, ofText]
    split
    · exact solid_integer _
    · exact h

theorem typed_normalized (v : Value) : v.normalized.Typed := by
  intro text ht
  cases v with
  | integer n => cases ht
  | text s =>
    simp only [normalized, ofText] at ht
    split at ht
    · cases ht
    · cases ht
      assumption

theorem Typed.toInteger?_eq_some_iff (h : v.Typed) {n : Int64} :
    v.toInteger? = some n ↔ v = .integer n := by
  cases v with
  | integer m => simp [toInteger?]
  | text s => simp [toInteger?, h s rfl]

theorem solid_of_isResult (h : Operator.IsResult v) : v.Solid := by
  obtain ⟨n, rfl⟩ | ⟨x, rfl⟩ := h
  · exact solid_integer n
  · refine solid_text fun c hc => ?_
    obtain hdigit | rfl | rfl := Decimal.mem_render hc
    · exact isWordChar_of_isDigit hdigit
    · decide
    · decide

theorem Solid.display (h : v.Solid) : Solid (.text v.display) := by
  refine solid_text fun c hc => ?_
  cases v with
  | text s => exact h s rfl c hc
  | integer n => exact (Integer.isNumeral_render n).isWordChar hc

theorem Solid.unbroken (h : Solid (.text text)) : Unbroken text := fun c hc => (h text rfl c hc).1

end Value

end FlatLisp
