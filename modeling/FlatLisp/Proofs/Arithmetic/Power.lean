import FlatLisp.Proofs.Arithmetic
import Mathlib.Algebra.Ring.Parity

/-! Powers of integers. Below 2^32 an exponent leads to the exact power or to an overflow. From there
on it is refused whatever the power is, and the powers of -1, 0 and 1 would fit. -/
namespace FlatLisp
open Integer

namespace Integer
variable {n : Int} {exponent : Nat}

/-- The powers of -1, 0 and 1 depend on whether the exponent is zero, odd or even. -/
theorem pow_of_natAbs_le_one (h : n.natAbs ≤ 1) (exponent : Nat) :
    n ^ (if exponent = 0 then 0 else 2 - exponent % 2) = n ^ exponent := by
  obtain rfl | rfl | rfl : n = -1 ∨ n = 0 ∨ n = 1 := by omega
  · obtain he | he := Nat.mod_two_eq_zero_or_one exponent
    · have hpow : (-1 : Int) ^ exponent = 1 := (Nat.even_iff.mpr he).neg_one_pow
      split <;> simp [he, hpow]
    · have hpow : (-1 : Int) ^ exponent = -1 := (Nat.odd_iff.mpr he).neg_one_pow
      have hne : exponent ≠ 0 := by omega
      simp [he, hne, hpow]
  · obtain rfl | hne := Nat.eq_zero_or_pos exponent
    · rfl
    · rw [if_neg (by omega), zero_pow (by omega), zero_pow (by omega)]
  · simp

theorem not_fits_pow (h : 2 ≤ n.natAbs) (he : 64 ≤ exponent) : ¬ Fits (n ^ exponent) := by
  have hpow : 2 ^ 64 ≤ (n ^ exponent).natAbs := by
    rw [Int.natAbs_pow]
    exact (Nat.pow_le_pow_left h 64).trans (Nat.pow_le_pow_right (by omega) he)
  simp only [Fits, bound]
  omega

theorem pow?_eq_fit? (base : Int64) (h : exponent < exponentBound) :
    pow? base exponent = fit? (base.toInt ^ exponent) := by
  have hbound : ¬ exponentBound ≤ exponent := by omega
  simp only [pow?, hbound, if_false]
  split
  · exact congrArg fit? (pow_of_natAbs_le_one ‹_› exponent)
  · split
    · rfl
    · exact (fit?_of_not_fits (not_fits_pow (by omega) (by omega))).symm

theorem pow?_eq_none (base : Int64) (h : exponentBound ≤ exponent) : pow? base exponent = none :=
  if_pos h

end Integer

namespace Operator
variable {args : List Value} {n : Int} {ns : List Int}

/-- The power with an exponent that is not negative. -/
def power (base exponent : Int) : Int := base ^ exponent.toNat

theorem pow?_of_nonneg {b : Int64} (hpos : 0 ≤ b.toInt) (a : Int64) :
    Number.pow? (.int a) (.int b) = (Integer.pow? a b.toInt.toNat).map .int :=
  if_pos (Int64.le_iff_toInt_le.mpr (by simpa using hpos))

theorem checks_pow {b : Int64} (hpos : 0 ≤ b.toInt) (hb : b.toInt < exponentBound) :
    Checks Number.pow? power b := by
  intro a
  rw [pow?_of_nonneg hpos, pow?_eq_fit? a (by omega), power]

theorem pow?_of_large {b : Int64} (hb : exponentBound ≤ b.toInt) (a : Int64) :
    Number.pow? (.int a) (.int b) = none := by
  rw [pow?_of_nonneg (by omega), pow?_eq_none a (by omega), Option.map_none]

/-- The steps before the large exponent stay in the integers, or else the fold is over already. -/
theorem accumulate_pow_of_large {ks : List Int64} (hpos : ∀ b ∈ ks, 0 ≤ b.toInt)
    (hlarge : ∃ b ∈ ks, exponentBound ≤ b.toInt) (a : Int64) :
    accumulate Number.pow? (.int a) (ks.map .int) = none := by
  induction ks generalizing a with
  | nil => simp at hlarge
  | cons b ks ih =>
    simp only [List.map_cons, accumulate]
    by_cases hb : exponentBound ≤ b.toInt
    · rw [pow?_of_large hb a, Option.bind_none]
    · rw [checks_pow (hpos b (by simp)) (by omega) a]
      cases fit? (power a.toInt b.toInt) with
      | none => rfl
      | some c =>
        refine ih (fun e he => hpos e (by simp [he])) ?_ c
        simpa [hb] using hlarge

/-- Powers of operands that read as integers, with no exponent negative, are exact or overflow
while the exponents have 32 bits. A greater exponent is an overflow in any case. -/
theorem powers_exact_below_bound (h : List.Forall₂ Value.ReadsAs args (n :: ns))
    (hpos : ∀ b ∈ ns, 0 ≤ b) :
    ((∀ b ∈ ns, b < 2 ^ 32) → ExactOrOverflow pow args (ns.scanl power n) (ns.foldl power n)) ∧
    ((∃ b ∈ ns, 2 ^ 32 ≤ b) → pow.apply args = .error (.arithmeticOverflow "^")) := by
  obtain ⟨ks, hks, hargs⟩ := exists_ints pow h
  obtain ⟨a, ks, rfl, rfl, rfl⟩ := List.map_eq_cons_iff.mp hks
  have hfold : pow.apply args = pow.result (accumulate Number.pow? (.int a) (ks.map .int)) :=
    foldFirst_of_numbers hargs Number.pow?
  have hpos : ∀ b ∈ ks, 0 ≤ b.toInt := List.forall_mem_map.mp hpos
  constructor
  · intro hsmall
    refine exactOrOverflow_of_fold hfold fun b hb => checks_pow (hpos b hb) ?_
    exact hsmall b.toInt (List.mem_map_of_mem hb)
  · rintro ⟨_, hmem, hlarge⟩
    obtain ⟨b, hb, rfl⟩ := List.mem_map.mp hmem
    rw [hfold, accumulate_pow_of_large hpos ⟨b, hb, hlarge⟩ a]
    rfl

/-- An exact power of operands some of which are text, and a refused one: the first exponent that
needs 33 bits. -/
theorem powers_of_minus_seven_and_one :
    (∃ k : Int64, k.toInt = 117649 ∧
      pow.apply [.text "-7", .integer 2, .text "3"] = .ok (.integer k)) ∧
    pow.apply [.integer 1, .integer 4294967296] = .error (.arithmeticOverflow "^") := by
  have hseven : (Value.text "-7").ReadsAs (-7) := ⟨-7, by decide +kernel, rfl⟩
  have htwo : (Value.integer 2).ReadsAs 2 := ⟨2, rfl, rfl⟩
  have hthree : (Value.text "3").ReadsAs 3 := ⟨3, by decide +kernel, rfl⟩
  have hone : (Value.integer 1).ReadsAs 1 := ⟨1, rfl, rfl⟩
  have hlarge : (Value.integer 4294967296).ReadsAs 4294967296 := ⟨4294967296, rfl, rfl⟩
  constructor
  · have hexact := (powers_exact_below_bound (.cons hseven (.cons htwo (.cons hthree .nil)))
      (by decide)).1 (by decide)
    exact hexact.1 (by decide)
  · exact (powers_exact_below_bound (.cons hone (.cons hlarge .nil)) (by decide)).2 (by decide)

/-- The size of an exponent by itself can make a power fail: one to any power is one, but to this
one it is an overflow. -/
theorem power_of_one_refused :
    ¬ ∀ args n ns, List.Forall₂ Value.ReadsAs args (n :: ns) → (∀ b ∈ ns, 0 ≤ b) →
      ExactOrOverflow pow args (ns.scanl power n) (ns.foldl power n) := by
  intro h
  have hone : (Value.integer 1).ReadsAs 1 := ⟨1, rfl, rfl⟩
  have hlarge : (Value.integer 4294967296).ReadsAs 4294967296 := ⟨4294967296, rfl, rfl⟩
  have hexact := h _ _ _ (.cons hone (.cons hlarge .nil)) (by decide)
  obtain ⟨k, -, hok⟩ := hexact.1 (by simp [power, Fits, bound])
  have hrefused : pow.apply [.integer 1, .integer 4294967296] = .error pow.overflow := by
    decide +kernel
  rw [hrefused] at hok
  cases hok

end Operator
end FlatLisp
