import FlatLisp.Proofs.Arithmetic.Operands

/-! Quotients and remainders. Operands that are no numbers are found first, then zeros among the
divisors, and what is left for the steps to fail with is an overflow. -/
namespace FlatLisp
open Integer

namespace Operator
variable {op : Operator} {zero : Fault} {v first : Value} {before after rest args : List Value}

/-- The operators that refuse a zero among the operands behind the first one, each of them with a
fault of its own. -/
inductive Refuses : Operator → Fault → Prop
  | div : Refuses div .divisionByZero
  | mod : Refuses mod .moduloByZero

theorem Refuses.exists_step (h : Refuses op zero) :
    ∃ step, ∀ args, op.apply args = op.foldFirst (some zero) step args := by
  cases h with
  | div => exact ⟨Number.div?, fun _ => rfl⟩
  | mod => exact ⟨Number.rem?, fun _ => rfl⟩

theorem Refuses.ne_overflow (h : Refuses op zero) (name : String) :
    Fault.arithmeticOverflow name ≠ zero := by
  cases h <;> simp

theorem Refuses.ne_invalidOperand (h : Refuses op zero) (name operand : String) :
    Fault.invalidOperand name operand ≠ zero := by
  cases h <;> simp

theorem apply_of_not_isNumeric (h : Refuses op zero) (hbefore : ∀ w ∈ before, w.IsNumeric)
    (hv : ¬ v.IsNumeric) :
    op.apply (before ++ v :: after) = .error (.invalidOperand op.symbol v.display) := by
  obtain ⟨step, hstep⟩ := h.exists_step
  rw [hstep, foldFirst, numbers_of_not_isNumeric op hbefore hv]
  rfl

/-- Once all operands are numbers, a zero decides before the first step is taken. -/
theorem apply_of_numbers {seed : Number} {xs : List Number} {step}
    (hstep : ∀ args, op.apply args = op.foldFirst (some zero) step args)
    (hargs : op.numbers args = .ok (seed :: xs)) :
    op.apply args =
      if xs.any Number.isZero then .error zero else op.result (accumulate step seed xs) := by
  rw [hstep, foldFirst, hargs]
  rfl

theorem result_cases (op : Operator) (x : Option Number) :
    (∃ v, op.result x = .ok v) ∨ op.result x = .error (.arithmeticOverflow op.symbol) := by
  simp only [result]
  split
  · exact .inl ⟨_, rfl⟩
  · exact .inr rfl

theorem apply_of_isZero (h : Refuses op zero) (hargs : ∀ w ∈ first :: rest, w.IsNumeric)
    (hzero : ∃ w ∈ rest, w.IsZero) : op.apply (first :: rest) = .error zero := by
  obtain ⟨step, hstep⟩ := h.exists_step
  obtain ⟨xs, hxs, hall⟩ := numbers_of_isNumeric op hargs
  cases hall with
  | cons hseed hall => rw [apply_of_numbers hstep hxs, if_pos ((any_isZero_iff hall).mpr hzero)]

/-- All that can come of numbers with no zero among the divisors. -/
theorem apply_of_not_isZero (h : Refuses op zero) (hargs : ∀ w ∈ first :: rest, w.IsNumeric)
    (hzero : ¬ ∃ w ∈ rest, w.IsZero) :
    (∃ v, op.apply (first :: rest) = .ok v) ∨
      op.apply (first :: rest) = .error (.arithmeticOverflow op.symbol) := by
  obtain ⟨step, hstep⟩ := h.exists_step
  obtain ⟨xs, hxs, hall⟩ := numbers_of_isNumeric op hargs
  cases hall with
  | cons hseed hall =>
    rw [apply_of_numbers hstep hxs, if_neg fun hany => hzero ((any_isZero_iff hall).mp hany)]
    exact result_cases op _

/-- The divisors divide the integer one after another, each of them evenly and with a quotient that
fits, and `q` is left. -/
inductive DividesEvenly : Int → List Int → Int → Prop
  | nil {a : Int} : DividesEvenly a [] a
  | cons {a b q r : Int} {bs : List Int} :
      q * b = a → Fits q → DividesEvenly q bs r → DividesEvenly a (b :: bs) r

/-- Where remainders are taken one after another, the least integer meets the divisor -1. -/
def LeastMeetsMinusOne (a : Int) (bs : List Int) : Prop :=
  ∃ before after, bs = before ++ -1 :: after ∧ before.foldl Int.tmod a = -bound

end Operator

namespace Integer
variable {a b : Int64} {q : Int}

theorem tdiv_of_mul_eq {a b q : Int} (hb : b ≠ 0) (h : q * b = a) : a.tdiv b = q := by
  rw [← h, Int.mul_tdiv_cancel _ hb]

theorem quot?_of_mul_eq (hb : b.toInt ≠ 0) (h : q * b.toInt = a.toInt) : quot? a b = fit? q :=
  congrArg fit? (tdiv_of_mul_eq hb h)

theorem rem?_of_mul_eq (hb : b.toInt ≠ 0) (h : q * b.toInt = a.toInt) (hq : Fits q) :
    rem? a b = some 0 := by
  obtain ⟨k, hk, -⟩ := exists_of_fits hq
  have hrem : a.toInt.tmod b.toInt = 0 := by rw [← h, Int.mul_tmod_left]
  simp only [rem?, quot?_of_mul_eq hb h, hk, hrem, Option.map_some]
  rfl

/-- The one quotient that does not fit. -/
theorem rem?_of_least (ha : a.toInt = -bound) (hb : b.toInt = -1) : rem? a b = none := by
  simp only [rem?, quot?, ha, hb]
  rfl

/-- A divisor of size two or more halves the size at least. -/
theorem fits_tdiv {a b : Int} (ha : Fits a) (h : ¬ (a = -bound ∧ b = -1)) : Fits (a.tdiv b) := by
  by_cases hb : 2 ≤ b.natAbs
  · have hsize : (a.tdiv b).natAbs ≤ a.natAbs / 2 := by
      rw [Int.natAbs_tdiv]
      exact Nat.div_le_div_left hb (by decide)
    simp only [Fits, bound] at *
    omega
  · obtain rfl | rfl | rfl : b = -1 ∨ b = 0 ∨ b = 1 := by omega
    · have hne : a ≠ -bound := fun hleast => h ⟨hleast, rfl⟩
      rw [Int.tdiv_neg, Int.tdiv_one]
      simp only [Fits, bound] at ha hne ⊢
      omega
    · rw [Int.tdiv_zero]
      decide
    · rwa [Int.tdiv_one]

theorem tmod_nonpos {a : Int} (b : Int) (ha : a ≤ 0) : a.tmod b ≤ 0 := by
  have hneg : 0 ≤ (-a).tmod b := Int.tmod_nonneg b (by omega)
  rw [Int.neg_tmod] at hneg
  omega

theorem fits_tmod {a : Int} (ha : Fits a) (b : Int) : Fits (a.tmod b) := by
  have hsize : (a.tmod b).natAbs ≤ a.natAbs := by
    rw [Int.natAbs_tmod]
    exact Nat.mod_le _ _
  simp only [Fits, bound] at *
  obtain hpos | hneg := Int.le_total 0 a
  · omega
  · have := tmod_nonpos b hneg
    omega

theorem rem?_of_not_least (h : ¬ (a.toInt = -bound ∧ b.toInt = -1)) :
    ∃ k, k.toInt = a.toInt.tmod b.toInt ∧ rem? a b = some k := by
  obtain ⟨k, hk, -⟩ := exists_of_fits (fits_tdiv (fits_toInt a) h)
  have hfits : Fits (a.toInt.tmod b.toInt) := fits_tmod (fits_toInt a) b.toInt
  refine ⟨_, Int64.toInt_ofInt_of_le hfits.1 hfits.2, ?_⟩
  simp only [rem?, quot?, hk, Option.map_some]

/-- Remainders taken one after another are zero or have the sign of what they start with. -/
theorem foldl_tmod_sign (a : Int) (bs : List Int) :
    bs.foldl Int.tmod a = 0 ∨ (bs.foldl Int.tmod a).sign = a.sign := by
  induction bs generalizing a with
  | nil => exact .inr rfl
  | cons b bs ih =>
    rw [List.foldl_cons]
    obtain hzero | hsign := ih (a.tmod b)
    · exact .inl hzero
    · rw [Int.sign_tmod] at hsign
      split at hsign
      · exact .inl (Int.sign_eq_zero_iff_zero.mp hsign)
      · exact .inr hsign

/-- The last divisor bounds what is left. -/
theorem foldl_tmod_lt (a : Int) {bs : List Int} (hne : ∀ b ∈ bs, b ≠ 0) {last : Int}
    (h : last ∈ bs.getLast?) : (bs.foldl Int.tmod a).natAbs < last.natAbs := by
  obtain ⟨before, rfl⟩ := List.getLast?_eq_some_iff.mp h
  have hpos : last ≠ 0 := hne last (by simp)
  rw [List.foldl_concat, Int.natAbs_tmod]
  exact Nat.mod_lt _ (by omega)

end Integer

namespace Operator
variable {args : List Value} {a : Int64} {ks : List Int64} {q : Int}

theorem DividesEvenly.mul_prod {a q : Int} {bs : List Int} (h : DividesEvenly a bs q) :
    q * bs.prod = a := by
  induction h with
  | nil => simp
  | @cons a b q r bs hq _ _ ih => rw [List.prod_cons, Int.mul_left_comm, ih, Int.mul_comm, hq]

theorem accumulate_append (step : Number → Number → Option Number) (seed : Number)
    (xs ys : List Number) :
    accumulate step seed (xs ++ ys) = (accumulate step seed xs).bind (accumulate step · ys) := by
  induction xs generalizing seed with
  | nil => rfl
  | cons x xs ih => simp only [List.cons_append, accumulate, ih, Option.bind_assoc]

/-- As long as the divisors divide evenly, the steps stay in the integers. -/
theorem accumulate_div (hne : ∀ b ∈ ks, b.toInt ≠ 0)
    (h : DividesEvenly a.toInt (ks.map Int64.toInt) q) :
    ∃ k, k.toInt = q ∧ accumulate Number.div? (.int a) (ks.map .int) = some (.int k) := by
  induction ks generalizing a with
  | nil =>
    cases h
    exact ⟨a, rfl, rfl⟩
  | cons b ks ih =>
    obtain ⟨hb, hne⟩ := List.forall_mem_cons.mp hne
    cases h with
    | cons hmul hfit hrest =>
      obtain ⟨c, hc, rfl⟩ := exists_of_fits hfit
      obtain ⟨k, hk, hsome⟩ := ih hne hrest
      refine ⟨k, hk, ?_⟩
      simp only [List.map_cons, accumulate, Number.div?, rem?_of_mul_eq hb hmul hfit,
        quot?_of_mul_eq hb hmul, hc, Option.bind_some, Option.map_some, if_true, hsome]

theorem div?_of_least {b : Int64} (ha : a.toInt = -bound) (hb : b.toInt = -1) :
    Number.div? (.int a) (.int b) = none := by
  simp only [Number.div?, rem?_of_least ha hb, Option.bind_none]

theorem leastMeetsMinusOne_cons_iff {a b : Int} {bs : List Int} :
    LeastMeetsMinusOne a (b :: bs) ↔ (a = -bound ∧ b = -1) ∨ LeastMeetsMinusOne (a.tmod b) bs := by
  constructor
  · rintro ⟨before, after, hbs, hleast⟩
    cases before with
    | nil =>
      obtain ⟨rfl, rfl⟩ : b = -1 ∧ bs = after := by simpa using hbs
      exact .inl ⟨hleast, rfl⟩
    | cons c before =>
      obtain ⟨rfl, rfl⟩ : b = c ∧ bs = before ++ -1 :: after := by simpa using hbs
      exact .inr ⟨before, after, rfl, hleast⟩
  · rintro (⟨hleast, rfl⟩ | ⟨before, after, rfl, hleast⟩)
    · exact ⟨[], bs, rfl, hleast⟩
    · exact ⟨b :: before, after, rfl, hleast⟩

theorem accumulate_rem (a : Int64) (ks : List Int64) :
    (LeastMeetsMinusOne a.toInt (ks.map Int64.toInt) →
      accumulate Number.rem? (.int a) (ks.map .int) = none) ∧
    (¬ LeastMeetsMinusOne a.toInt (ks.map Int64.toInt) →
      ∃ k, k.toInt = (ks.map Int64.toInt).foldl Int.tmod a.toInt ∧
        accumulate Number.rem? (.int a) (ks.map .int) = some (.int k)) := by
  induction ks generalizing a with
  | nil => exact ⟨by simp [LeastMeetsMinusOne], fun _ => ⟨a, rfl, rfl⟩⟩
  | cons b ks ih =>
    have hstep : Number.rem? (.int a) (.int b) = (rem? a b).map .int := rfl
    simp only [List.map_cons, leastMeetsMinusOne_cons_iff, List.foldl_cons, accumulate, hstep]
    by_cases hleast : a.toInt = -bound ∧ b.toInt = -1
    · simp [hleast, rem?_of_least hleast.1 hleast.2]
    · obtain ⟨c, hc, hrem⟩ := rem?_of_not_least hleast
      obtain ⟨hmeets, hok⟩ := ih c
      rw [hc] at hmeets hok
      simp only [hleast, false_or, hrem, Option.map_some, Option.bind_some]
      exact ⟨hmeets, hok⟩

theorem apply_eq_zero_iff (h : Refuses op zero) (first : Value) (rest : List Value) :
    op.apply (first :: rest) = .error zero ↔
      (∀ v ∈ first :: rest, v.IsNumeric) ∧ ∃ v ∈ rest, v.IsZero := by
  refine ⟨fun herror => ?_, fun hargs => apply_of_isZero h hargs.1 hargs.2⟩
  obtain hall | ⟨before, v, after, hargs, hbefore, hv⟩ := exists_not_isNumeric (first :: rest)
  · refine ⟨hall, ?_⟩
    by_contra hzero
    obtain ⟨v, hok⟩ | hover := apply_of_not_isZero h hall hzero
    · rw [hok] at herror
      cases herror
    · rw [hover] at herror
      exact h.ne_overflow _ (Except.error.inj herror)
  · rw [hargs, apply_of_not_isNumeric h hbefore hv] at herror
    exact absurd (Except.error.inj herror) (h.ne_invalidOperand _ _)

/-- Operands that read as integers with no zero among the divisors come to what the steps do. -/
theorem exists_accumulate {op : Operator} {zero : Fault} {n : Int} {ns : List Int} {step}
    (hstep : ∀ args, op.apply args = op.foldFirst (some zero) step args)
    (h : List.Forall₂ Value.ReadsAs args (n :: ns)) (hne : ∀ b ∈ ns, b ≠ 0) :
    ∃ (a : Int64) (ks : List Int64), a.toInt = n ∧ ks.map Int64.toInt = ns ∧
      (∀ b ∈ ks, b.toInt ≠ 0) ∧
      op.apply args = op.result (accumulate step (.int a) (ks.map .int)) := by
  obtain ⟨ks, hks, hargs⟩ := exists_ints op h
  obtain ⟨a, ks, rfl, rfl, rfl⟩ := List.map_eq_cons_iff.mp hks
  have hnonzero : ∀ b ∈ ks, b.toInt ≠ 0 := fun b hb => hne b.toInt (List.mem_map_of_mem hb)
  have hany : ¬ (ks.map Number.int).any Number.isZero := by
    simp only [List.any_map, List.any_eq_true, Function.comp_apply, Number.isZero,
      decide_eq_true_eq, not_exists, not_and]
    rintro b hb rfl
    exact hnonzero 0 hb rfl
  refine ⟨a, ks, rfl, rfl, hnonzero, ?_⟩
  rw [apply_of_numbers hstep hargs, if_neg hany]

/-- The steps of a division come to an end where the least integer meets -1. -/
theorem accumulate_div_of_least {before after : List Int} (hne : ∀ b ∈ ks, b.toInt ≠ 0)
    (hks : ks.map Int64.toInt = before ++ -1 :: after)
    (h : DividesEvenly a.toInt before (-bound)) :
    accumulate Number.div? (.int a) (ks.map .int) = none := by
  obtain ⟨xs, ys, rfl, rfl, hys⟩ := List.map_eq_append_iff.mp hks
  obtain ⟨b, zs, rfl, hb, rfl⟩ := List.map_eq_cons_iff.mp hys
  obtain ⟨k, hk, hsome⟩ := accumulate_div (fun c hc => hne c (by simp [hc])) h
  simp only [List.map_append, List.map_cons, accumulate_append, hsome, Option.bind_some,
    accumulate, div?_of_least hk hb, Option.bind_none]

theorem apply_div_of_ints {a : Int} {bs : List Int}
    (h : List.Forall₂ Value.ReadsAs args (a :: bs)) (hne : ∀ b ∈ bs, b ≠ 0) :
    (∀ q, DividesEvenly a bs q → ∃ k, k.toInt = q ∧ div.apply args = .ok (.integer k)) ∧
    (∀ before after, bs = before ++ -1 :: after → DividesEvenly a before (-bound) →
      div.apply args = .error (.arithmeticOverflow "/")) := by
  have hstep : ∀ args, div.apply args = div.foldFirst (some .divisionByZero) Number.div? args :=
    fun _ => rfl
  obtain ⟨a, ks, rfl, rfl, hks, hfold⟩ := exists_accumulate hstep h hne
  rw [hfold]
  refine ⟨fun q heven => ?_, fun before after hbs heven => ?_⟩
  · obtain ⟨k, hk, hsome⟩ := accumulate_div hks heven
    refine ⟨k, hk, ?_⟩
    rw [hsome]
    rfl
  · rw [accumulate_div_of_least hks hbs heven]
    rfl

theorem apply_mod_of_ints {a : Int} {bs : List Int}
    (h : List.Forall₂ Value.ReadsAs args (a :: bs)) (hne : ∀ b ∈ bs, b ≠ 0) :
    (LeastMeetsMinusOne a bs → mod.apply args = .error (.arithmeticOverflow "%")) ∧
    (¬ LeastMeetsMinusOne a bs →
      ∃ k, k.toInt = bs.foldl Int.tmod a ∧ mod.apply args = .ok (.integer k)) := by
  have hstep : ∀ args, mod.apply args = mod.foldFirst (some .moduloByZero) Number.rem? args :=
    fun _ => rfl
  obtain ⟨a, ks, rfl, rfl, -, hfold⟩ := exists_accumulate hstep h hne
  obtain ⟨hmeets, hok⟩ := accumulate_rem a ks
  rw [hfold]
  refine ⟨fun hleast => ?_, fun hleast => ?_⟩
  · rw [hmeets hleast]
    rfl
  · obtain ⟨k, hk, hsome⟩ := hok hleast
    refine ⟨k, hk, ?_⟩
    rw [hsome]
    rfl

/-- Of the operators that refuse zeros, on any operands: the first operand that is no number is the
fault, else a zero behind the first operand, and nothing but an overflow is left. On operands that
read as integers, with no zero behind the first: an even division is exact, remainders are the
truncating ones, and the least integer overflows where it meets -1. -/
theorem division_and_remainder :
    (∀ op zero, Refuses op zero → ∀ first rest,
      (∀ before v after, first :: rest = before ++ v :: after → (∀ w ∈ before, w.IsNumeric) →
        ¬ v.IsNumeric →
          op.apply (first :: rest) = .error (.invalidOperand op.symbol v.display)) ∧
      (op.apply (first :: rest) = .error zero ↔
        (∀ v ∈ first :: rest, v.IsNumeric) ∧ ∃ v ∈ rest, v.IsZero) ∧
      ((∀ v ∈ first :: rest, v.IsNumeric) → (¬ ∃ v ∈ rest, v.IsZero) →
        (∃ v, op.apply (first :: rest) = .ok v) ∨
          op.apply (first :: rest) = .error (.arithmeticOverflow op.symbol))) ∧
    ∀ args a bs, List.Forall₂ Value.ReadsAs args (a :: bs) → (∀ b ∈ bs, b ≠ 0) →
      (∀ q, DividesEvenly a bs q →
        q * bs.prod = a ∧ ∃ k, k.toInt = q ∧ div.apply args = .ok (.integer k)) ∧
      (∀ before after, bs = before ++ -1 :: after → DividesEvenly a before (-bound) →
        div.apply args = .error (.arithmeticOverflow "/")) ∧
      (LeastMeetsMinusOne a bs → mod.apply args = .error (.arithmeticOverflow "%")) ∧
      (¬ LeastMeetsMinusOne a bs →
        ∃ k, k.toInt = bs.foldl Int.tmod a ∧ mod.apply args = .ok (.integer k)) ∧
      (bs.foldl Int.tmod a = 0 ∨ (bs.foldl Int.tmod a).sign = a.sign) ∧
      ∀ last ∈ bs.getLast?, (bs.foldl Int.tmod a).natAbs < last.natAbs := by
  refine ⟨?_, ?_⟩
  · intro op zero h first rest
    refine ⟨?_, apply_eq_zero_iff h first rest, apply_of_not_isZero h⟩
    intro before v after hargs hbefore hv
    rw [hargs]
    exact apply_of_not_isNumeric h hbefore hv
  · intro args a bs h hne
    obtain ⟨hdiv, hover⟩ := apply_div_of_ints h hne
    obtain ⟨hmeets, hmod⟩ := apply_mod_of_ints h hne
    refine ⟨fun q heven => ⟨heven.mul_prod, hdiv q heven⟩, hover, hmeets, hmod, ?_, ?_⟩
    · exact foldl_tmod_sign a bs
    · exact fun last hlast => foldl_tmod_lt a hne hlast

/-- Zeros and other texts behind a pair of operands that overflows, and the least integer as a
dividend: the pair overflows only where the divisors before it leave the least integer as it is. -/
theorem division_and_remainder_of_least :
    (div.apply [.integer Int64.minValue, .integer (-1), .text "x", .integer 0] =
        .error (.invalidOperand "/" "x") ∧
      mod.apply [.integer Int64.minValue, .integer (-1), .text "-0.0"] = .error .moduloByZero) ∧
    ((∃ k : Int64, k.toInt = -4611686018427387904 ∧
        div.apply [.integer Int64.minValue, .text "-2", .integer (-1)] = .ok (.integer k)) ∧
      div.apply [.integer Int64.minValue, .integer 1, .integer (-1)] =
        .error (.arithmeticOverflow "/")) ∧
    mod.apply [.integer Int64.minValue, .integer (-1)] = .error (.arithmeticOverflow "%") ∧
    ∃ k : Int64, k.toInt = -3 ∧
      mod.apply [.integer Int64.minValue, .integer 5, .integer (-1000)] = .ok (.integer k) := by
  have hleast : (Value.integer Int64.minValue).ReadsAs (-bound) := ⟨_, rfl, rfl⟩
  have hinteger (n : Int64) : (Value.integer n).ReadsAs n.toInt := ⟨n, rfl, rfl⟩
  have htwo : (Value.text "-2").ReadsAs (-2) := ⟨-2, by decide +kernel, rfl⟩
  have hnumeric (n : Int64) : (Value.integer n).IsNumeric := .inl rfl
  have hword : ¬ (Value.text "x").IsNumeric := by
    rw [Value.isNumeric_iff, ← Option.isSome_iff_exists]
    decide +kernel
  have hnone : (Value.text "-0.0").toInteger? = none := by decide +kernel
  have hread : (Decimal.read? "-0.0").any (· == 0.0) := by decide +kernel
  obtain ⟨x, hx, hzero⟩ := (Option.any_eq_true _ _).mp hread
  obtain ⟨hrefuses, hints⟩ := division_and_remainder
  refine ⟨⟨?_, ?_⟩, ⟨?_, ?_⟩, ?_, ?_⟩
  · exact (hrefuses div _ .div _ _).1 [.integer Int64.minValue, .integer (-1)] _ [.integer 0] rfl
      (by simp [hnumeric]) hword
  · refine (hrefuses mod _ .mod _ _).2.1.mpr ⟨?_, .text "-0.0", by simp, .inr ⟨hnone, ?_⟩⟩
    · simp only [List.forall_mem_cons, hnumeric, true_and]
      exact ⟨.inr ⟨_, x, rfl, hx⟩, by simp⟩
    · exact ⟨_, x, rfl, hx, hzero⟩
  · have heven : DividesEvenly (-bound) [-2, -1] (-4611686018427387904) :=
      .cons (q := 4611686018427387904) (by decide) (by decide) (.cons (by decide) (by decide) .nil)
    have hfold := hints _ _ _ (.cons hleast (.cons htwo (.cons (hinteger (-1)) .nil))) (by decide)
    exact (hfold.1 _ heven).2
  · have hfold := hints _ _ _ (.cons hleast (.cons (hinteger 1) (.cons (hinteger (-1)) .nil)))
      (by decide)
    exact hfold.2.1 [1] [] rfl (.cons (by decide) (by decide) .nil)
  · have hfold := hints _ _ _ (.cons hleast (.cons (hinteger (-1)) .nil)) (by decide)
    exact hfold.2.2.1 ⟨[], [], rfl, rfl⟩
  · have hfold := hints _ _ _ (.cons hleast (.cons (hinteger 5) (.cons (hinteger (-1000)) .nil)))
      (by decide)
    refine hfold.2.2.2.1 ?_
    rintro ⟨before, after, hbs, -⟩
    have hmem : (-1 : Int) ∈ [(5 : Int64).toInt, (-1000 : Int64).toInt] := hbs ▸ (by simp)
    exact absurd hmem (by decide)

end Operator
end FlatLisp
