import FlatLisp.Proofs.Arithmetic

/-! Operands as numbers: which values read as one, which of them as zero, and what an operator that
wants numbers does about the others. -/
namespace FlatLisp

namespace Value
variable {v : Value}

/-- The value reads as an integer, or else as a finite decimal number. -/
def IsNumeric (v : Value) : Prop :=
  v.toInteger?.isSome ∨ ∃ text x, v = .text text ∧ Decimal.read? text = some x

/-- The integer or else the decimal number that the value reads as is zero. -/
def IsZero (v : Value) : Prop :=
  v.toInteger? = some 0 ∨
    v.toInteger? = none ∧ ∃ text x, v = .text text ∧ Decimal.read? text = some x ∧ x == 0.0

/-- The ways in which a value reads as a number, or does not. -/
theorem reading_cases (v : Value) :
    (∃ n, v.toInteger? = some n ∧ Number.ofValue? v = some (.int n)) ∨
    (∃ text x, v = .text text ∧ v.toInteger? = none ∧ Decimal.read? text = some x ∧
      Number.ofValue? v = some (.float x)) ∨
    ∃ text, v = .text text ∧ v.toInteger? = none ∧ Decimal.read? text = none ∧
      Number.ofValue? v = none := by
  cases v with
  | integer n => exact .inl ⟨n, rfl, rfl⟩
  | text s =>
    cases hn : Integer.read? s with
    | some n => exact .inl ⟨n, hn, ofValue?_of_toInteger? hn⟩
    | none =>
      have hnumber : Number.ofValue? (.text s) = (Decimal.read? s).map .float := by
        simp only [Number.ofValue?, Number.ofText?, hn]
      cases hx : Decimal.read? s with
      | some x => exact .inr (.inl ⟨s, x, rfl, hn, hx, by rw [hnumber, hx, Option.map_some]⟩)
      | none => exact .inr (.inr ⟨s, rfl, hn, hx, by rw [hnumber, hx, Option.map_none]⟩)

theorem isNumeric_iff : v.IsNumeric ↔ ∃ x, Number.ofValue? v = some x := by
  obtain ⟨n, hn, hv⟩ | ⟨text, x, rfl, hn, hx, hv⟩ | ⟨text, rfl, hn, hx, hv⟩ := reading_cases v
  · simp [IsNumeric, hn, hv]
  · simp [IsNumeric, hx, hv]
  · simp [IsNumeric, hn, hx, hv]

theorem isZero_iff {x : Number} (h : Number.ofValue? v = some x) : v.IsZero ↔ x.isZero := by
  obtain ⟨n, hn, hv⟩ | ⟨text, y, rfl, hn, hy, hv⟩ | ⟨text, rfl, hn, hy, hv⟩ := reading_cases v
  · obtain rfl : Number.int n = x := Option.some.inj (hv.symm.trans h)
    simp [IsZero, hn, Number.isZero]
  · obtain rfl : Number.float y = x := Option.some.inj (hv.symm.trans h)
    simp [IsZero, hn, hy, Number.isZero]
  · rw [hv] at h
    cases h

end Value

namespace Operator
variable {v : Value} {before after args : List Value}

theorem numbers_of_isNumeric (op : Operator) (h : ∀ w ∈ args, w.IsNumeric) :
    ∃ xs, op.numbers args = .ok xs ∧
      List.Forall₂ (fun w x => Number.ofValue? w = some x) args xs := by
  induction args with
  | nil => exact ⟨[], rfl, .nil⟩
  | cons w args ih =>
    obtain ⟨hw, hargs⟩ := List.forall_mem_cons.mp h
    obtain ⟨x, hx⟩ := Value.isNumeric_iff.mp hw
    obtain ⟨xs, hxs, hall⟩ := ih hargs
    refine ⟨x :: xs, ?_, .cons hx hall⟩
    simp only [numbers, hx, hxs]
    rfl

/-- The first operand that is no number is the fault. -/
theorem numbers_of_not_isNumeric (op : Operator) (hbefore : ∀ w ∈ before, w.IsNumeric)
    (hv : ¬ v.IsNumeric) :
    op.numbers (before ++ v :: after) = .error (.invalidOperand op.symbol v.display) := by
  induction before with
  | nil =>
    have hnone : Number.ofValue? v = none := by
      rw [Value.isNumeric_iff, not_exists] at hv
      exact Option.eq_none_iff_forall_ne_some.mpr hv
    simp only [List.nil_append, numbers, hnone]
    rfl
  | cons w before ih =>
    obtain ⟨hw, hbefore⟩ := List.forall_mem_cons.mp hbefore
    obtain ⟨x, hx⟩ := Value.isNumeric_iff.mp hw
    simp only [List.cons_append, numbers, hx, ih hbefore]
    rfl

/-- The first operand that is no number, if there is one. -/
theorem exists_not_isNumeric (args : List Value) :
    (∀ w ∈ args, w.IsNumeric) ∨
    ∃ before v after, args = before ++ v :: after ∧ (∀ w ∈ before, w.IsNumeric) ∧
      ¬ v.IsNumeric := by
  induction args with
  | nil => exact .inl (by simp)
  | cons w args ih =>
    by_cases hw : w.IsNumeric
    · obtain hall | ⟨before, v, after, rfl, hbefore, hv⟩ := ih
      · exact .inl (List.forall_mem_cons.mpr ⟨hw, hall⟩)
      · exact .inr ⟨w :: before, v, after, rfl, List.forall_mem_cons.mpr ⟨hw, hbefore⟩, hv⟩
    · exact .inr ⟨[], w, args, rfl, by simp, hw⟩

theorem any_isZero_iff {xs : List Number}
    (h : List.Forall₂ (fun w x => Number.ofValue? w = some x) args xs) :
    xs.any Number.isZero ↔ ∃ w ∈ args, w.IsZero := by
  induction h with
  | nil => simp
  | cons hw _ ih => simp [Value.isZero_iff hw, ih]

end Operator
end FlatLisp
