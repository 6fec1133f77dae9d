import FlatLisp.Operator
import Mathlib.Algebra.BigOperators.Group.List.Basic
import Mathlib.Algebra.Order.Ring.Int
import Mathlib.Data.List.Perm.Basic

/-! Arithmetic on operands that read as integers. It is exact as long as every result on the way
has 64 bits, and an overflow otherwise. -/
namespace FlatLisp

namespace Integer
variable {n : Int} {k : Int64}

/-- The integer has 64 bits. -/
def Fits (n : Int) : Prop := -bound ≤ n ∧ n < bound

instance (n : Int) : Decidable (Fits n) := inferInstanceAs (Decidable (_ ∧ _))

theorem fits_toInt (k : Int64) : Fits k.toInt := ⟨Int64.le_toInt k, Int64.toInt_lt k⟩

theorem exists_of_fits (h : Fits n) : ∃ k, fit? n = some k ∧ k.toInt = n := by
  have hk : fit? n = some (Int64.ofInt n) := if_pos h
  exact ⟨_, hk, toInt_of_fit? hk⟩

theorem fit?_of_not_fits (h : ¬ Fits n) : fit? n = none := if_neg h

end Integer

open Integer

/-- The value reads as the integer, be it given as an integer or as text. -/
def Value.ReadsAs (v : Value) (n : Int) : Prop := ∃ k, v.toInteger? = some k ∧ k.toInt = n

theorem Value.ofValue?_of_toInteger? {v : Value} {k : Int64} (h : v.toInteger? = some k) :
    Number.ofValue? v = some (.int k) := by
  cases v with
  | integer n =>
    obtain rfl : n = k := Option.some.inj h
    rfl
  | text s =>
    have hs : Integer.read? s = some k := h
    simp only [Number.ofValue?, Number.ofText?, hs]

namespace Operator
variable {op : Operator} {args : List Value} {ns partials : List Int} {v : Value}

theorem numbers_cons_int {k : Int64} {xs : List Number} (hv : v.toInteger? = some k)
    (hargs : op.numbers args = .ok xs) : op.numbers (v :: args) = .ok (.int k :: xs) := by
  simp only [numbers, Value.ofValue?_of_toInteger? hv, hargs]
  rfl

/-- Operands that read as integers are integer numbers. -/
theorem exists_ints (op : Operator) (h : List.Forall₂ Value.ReadsAs args ns) :
    ∃ ks : List Int64, ks.map Int64.toInt = ns ∧ op.numbers args = .ok (ks.map .int) := by
  induction h with
  | nil => exact ⟨[], rfl, rfl⟩
  | cons hv _ ih =>
    obtain ⟨k, hk, rfl⟩ := hv
    obtain ⟨ks, rfl, hargs⟩ := ih
    exact ⟨k :: ks, rfl, numbers_cons_int hk hargs⟩

/-- A step on two integers is the exact `f`, if that fits. -/
def Checks (step : Number → Number → Option Number) (f : Int → Int → Int) (b : Int64) : Prop :=
  ∀ a, step (.int a) (.int b) = (fit? (f a.toInt b.toInt)).map .int

/-- A fold of checked steps goes through if and only if each of its partial results fits, the first
of which is the seed. -/
theorem accumulate_checked {step : Number → Number → Option Number} {f : Int → Int → Int}
    {ks : List Int64} (hstep : ∀ b ∈ ks, Checks step f b) (a : Int64) :
    ((∀ n ∈ (ks.map Int64.toInt).scanl f a.toInt, Fits n) →
      ∃ k, k.toInt = (ks.map Int64.toInt).foldl f a.toInt ∧
        accumulate step (.int a) (ks.map .int) = some (.int k)) ∧
    ((∃ n ∈ (ks.map Int64.toInt).scanl f a.toInt, ¬ Fits n) →
      accumulate step (.int a) (ks.map .int) = none) := by
  induction ks generalizing a with
  | nil => simp [accumulate, fits_toInt]
  | cons b ks ih =>
    have hfirst := hstep b (by simp) a
    have hrest := ih fun c hc => hstep c (by simp [hc])
    simp only [List.map_cons, List.scanl_cons, List.foldl_cons, List.mem_cons, accumulate, hfirst]
    by_cases hfit : Fits (f a.toInt b.toInt)
    · obtain ⟨c, hc, hn⟩ := exists_of_fits hfit
      obtain ⟨hok, hno⟩ := hrest c
      rw [hn] at hok hno
      simp only [hc, Option.map_some, Option.bind_some]
      refine ⟨fun h => hok fun n hmem => h n (.inr hmem), ?_⟩
      rintro ⟨n, rfl | hmem, hn⟩
      · exact absurd (fits_toInt a) hn
      · exact hno ⟨n, hmem, hn⟩
    · simp only [fit?_of_not_fits hfit, Option.map_none, Option.bind_none]
      refine ⟨fun h => absurd (h (f a.toInt b.toInt) (.inr ?_)) hfit, fun _ => trivial⟩
      cases ks <;> simp

theorem foldFrom_of_numbers {xs : List Number} (h : op.numbers args = .ok xs) (neutral : Int64)
    (step : Number → Number → Option Number) :
    op.foldFrom neutral step args = op.result (accumulate step (.int neutral) xs) := by
  simp only [foldFrom, h]
  rfl

theorem foldFirst_of_numbers {seed : Number} {rest : List Number}
    (h : op.numbers args = .ok (seed :: rest)) (step : Number → Number → Option Number) :
    op.foldFirst none step args = op.result (accumulate step seed rest) := by
  simp only [foldFirst, h]
  rfl

/-- The operator comes to the exact `total` if all partial results fit, and overflows if one of
them does not. -/
def ExactOrOverflow (op : Operator) (args : List Value) (partials : List Int) (total : Int) :
    Prop :=
  ((∀ n ∈ partials, Fits n) → ∃ k, k.toInt = total ∧ op.apply args = .ok (.integer k)) ∧
  ((∃ n ∈ partials, ¬ Fits n) → op.apply args = .error (.arithmeticOverflow op.symbol))

theorem exactOrOverflow_of_fold {step : Number → Number → Option Number} {f : Int → Int → Int}
    {a : Int64} {ks : List Int64}
    (h : op.apply args = op.result (accumulate step (.int a) (ks.map .int)))
    (hstep : ∀ b ∈ ks, Checks step f b) :
    ExactOrOverflow op args ((ks.map Int64.toInt).scanl f a.toInt)
      ((ks.map Int64.toInt).foldl f a.toInt) := by
  obtain ⟨hok, hno⟩ := accumulate_checked hstep a
  refine ⟨fun hfit => ?_, fun hover => ?_⟩
  · obtain ⟨k, hk, hsome⟩ := hok hfit
    refine ⟨k, hk, ?_⟩
    rw [h, hsome]
    rfl
  · rw [h, hno hover]
    rfl

theorem ExactOrOverflow.of_ok {total : Int} (h : ExactOrOverflow op args partials total)
    (hv : op.apply args = .ok v) : ∃ k, v = .integer k ∧ k.toInt = total := by
  by_cases hover : ∃ n ∈ partials, ¬ Fits n
  · rw [h.2 hover] at hv
    cases hv
  · have hfit : ∀ n ∈ partials, Fits n := by simpa using hover
    obtain ⟨k, hk, hok⟩ := h.1 hfit
    exact ⟨k, Except.ok.inj (hv.symm.trans hok), hk⟩

/-- Two results that are exact are the same if what they should be is. -/
theorem ExactOrOverflow.eq_of_ok {others : List Value} {also : List Int} {w : Value} {total : Int}
    (h : ExactOrOverflow op args partials total) (h' : ExactOrOverflow op others also total)
    (hv : op.apply args = .ok v) (hw : op.apply others = .ok w) : v = w := by
  obtain ⟨k, rfl, hk⟩ := h.of_ok hv
  obtain ⟨l, rfl, hl⟩ := h'.of_ok hw
  rw [Int64.toInt_inj.mp (hk.trans hl.symm)]

theorem foldl_sub_eq (n : Int) (ns : List Int) : ns.foldl (· - ·) n = n - ns.sum := by
  induction ns generalizing n with
  | nil => simp
  | cons m ns ih =>
    rw [List.foldl_cons, ih, List.sum_cons]
    omega

theorem exactOrOverflow_add (h : List.Forall₂ Value.ReadsAs args ns) :
    ExactOrOverflow add args (ns.scanl (· + ·) 0) ns.sum := by
  obtain ⟨ks, rfl, hargs⟩ := exists_ints add h
  have hfold : add.apply args = add.result (accumulate Number.add? (.int 0) (ks.map .int)) :=
    foldFrom_of_numbers hargs 0 Number.add?
  rw [List.sum_eq_foldl]
  exact exactOrOverflow_of_fold hfold fun _ _ _ => rfl

theorem exactOrOverflow_mul (h : List.Forall₂ Value.ReadsAs args ns) :
    ExactOrOverflow mul args (ns.scanl (· * ·) 1) ns.prod := by
  obtain ⟨ks, rfl, hargs⟩ := exists_ints mul h
  have hfold : mul.apply args = mul.result (accumulate Number.mul? (.int 1) (ks.map .int)) :=
    foldFrom_of_numbers hargs 1 Number.mul?
  rw [List.prod_eq_foldl]
  exact exactOrOverflow_of_fold hfold fun _ _ _ => rfl

theorem exactOrOverflow_sub {n : Int} (h : List.Forall₂ Value.ReadsAs args (n :: ns)) :
    ExactOrOverflow sub args (ns.scanl (· - ·) n) (n - ns.sum) := by
  obtain ⟨ks, hks, hargs⟩ := exists_ints sub h
  obtain ⟨a, ks, rfl, rfl, rfl⟩ := List.map_eq_cons_iff.mp hks
  have hfold : sub.apply args = sub.result (accumulate Number.sub? (.int a) (ks.map .int)) :=
    foldFirst_of_numbers hargs Number.sub?
  rw [← foldl_sub_eq]
  exact exactOrOverflow_of_fold hfold fun _ _ _ => rfl

/-- Sums, products and differences of operands that read as integers are exact or overflow, and
where two orders of the operands (of the later ones, in a difference) both go through, they come
to the same. -/
theorem sums_products_differences_exact :
    (∀ args ns, List.Forall₂ Value.ReadsAs args ns →
      ExactOrOverflow add args (ns.scanl (· + ·) 0) ns.sum ∧
      ExactOrOverflow mul args (ns.scanl (· * ·) 1) ns.prod) ∧
    (∀ args n ns, List.Forall₂ Value.ReadsAs args (n :: ns) →
      ExactOrOverflow sub args (ns.scanl (· - ·) n) (n - ns.sum)) ∧
    (∀ args ns others v w, List.Forall₂ Value.ReadsAs args ns → others.Perm args →
      (add.apply args = .ok v → add.apply others = .ok w → v = w) ∧
      (mul.apply args = .ok v → mul.apply others = .ok w → v = w)) ∧
    ∀ first args n ns others v w, List.Forall₂ Value.ReadsAs (first :: args) (n :: ns) →
      others.Perm args → sub.apply (first :: args) = .ok v →
        sub.apply (first :: others) = .ok w → v = w := by
  refine ⟨?_, ?_, ?_, ?_⟩
  · exact fun args ns h => ⟨exactOrOverflow_add h, exactOrOverflow_mul h⟩
  · exact fun args n ns h => exactOrOverflow_sub h
  · intro args ns others v w h hperm
    obtain ⟨ms, hothers, hms⟩ := List.perm_comp_forall₂ hperm h
    constructor
    · have hsum := exactOrOverflow_add hothers
      rw [hms.sum_eq] at hsum
      exact (exactOrOverflow_add h).eq_of_ok hsum
    · have hprod := exactOrOverflow_mul hothers
      rw [hms.prod_eq] at hprod
      exact (exactOrOverflow_mul h).eq_of_ok hprod
  · intro first args n ns others v w h hperm
    obtain ⟨hfirst, hrest⟩ := List.forall₂_cons.mp h
    obtain ⟨ms, hothers, hms⟩ := List.perm_comp_forall₂ hperm hrest
    have hdifference := exactOrOverflow_sub (.cons hfirst hothers)
    rw [hms.sum_eq] at hdifference
    exact (exactOrOverflow_sub h).eq_of_ok hdifference

/-- The greatest integer, one more and five less, two of them as text: whether the sum goes through
depends on their order. -/
theorem sum_of_greatest_in_two_orders :
    add.apply [.integer 9223372036854775807, .text "+1", .text "-05"] =
      .error (.arithmeticOverflow "+") ∧
    ∃ k : Int64, k.toInt = 9223372036854775803 ∧
      add.apply [.integer 9223372036854775807, .text "-05", .text "+1"] = .ok (.integer k) := by
  have hmax : (Value.integer 9223372036854775807).ReadsAs 9223372036854775807 := ⟨_, rfl, rfl⟩
  have hone : (Value.text "+1").ReadsAs 1 := ⟨1, by decide +kernel, rfl⟩
  have hfive : (Value.text "-05").ReadsAs (-5) := ⟨-5, by decide +kernel, rfl⟩
  obtain ⟨hexact, -⟩ := sums_products_differences_exact
  have hover := (hexact _ _ (.cons hmax (.cons hone (.cons hfive .nil)))).1.2
  have hgood := (hexact _ _ (.cons hmax (.cons hfive (.cons hone .nil)))).1.1
  exact ⟨hover (by decide), hgood (by decide)⟩

end Operator
end FlatLisp
