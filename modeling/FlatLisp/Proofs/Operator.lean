import FlatLisp.Operator

/-! What operators come to: the faults that they find with their operands, and the values that they
have otherwise. -/
namespace FlatLisp.Operator

variable {op : Operator} {args : List Value} {f : Fault} {v : Value}

/-- A fault that the operator may find with operands that it is given. -/
inductive Finds (op : Operator) (args : List Value) : Fault → Prop
  | arity (expected : Arity) (got : Nat) : Finds op args (.arityMismatch op.symbol expected got)
  | divisionByZero : Finds op args .divisionByZero
  | moduloByZero : Finds op args .moduloByZero
  | notNumeric {a : Value} : a ∈ args → Finds op args (.nonNumericComparison op.symbol a.display)
  | notNumber {a : Value} : a ∈ args → Finds op args (.invalidOperand op.symbol a.display)
  | overflow : Finds op args op.overflow

/-- A value that a number is written as: an integer, or the text of a float. -/
def IsResult (v : Value) : Prop := (∃ n, v = .integer n) ∨ ∃ x, v = .text (Decimal.render x)

theorem isResult_of_toValue? {x : Number} (h : x.toValue? = some v) : IsResult v := by
  cases x with
  | int n => exact .inl ⟨n, (Option.some.inj h).symm⟩
  | float x =>
    simp only [Number.toValue?] at h
    split at h
    · split at h
      · exact .inl ⟨_, (Option.some.inj h).symm⟩
      · exact .inr ⟨x, (Option.some.inj h).symm⟩
    · cases h

theorem finds_of_numbers (h : op.numbers args = .error f) : Finds op args f := by
  induction args with
  | nil => cases h
  | cons a args ih =>
    simp only [numbers] at h
    cases hn : Number.ofValue? a with
    | none =>
      obtain rfl : Fault.invalidOperand op.symbol a.display = f := by
        simpa [hn, throw, throwThe, MonadExceptOf.throw] using h
      exact .notNumber (by simp)
    | some x =>
      rw [hn] at h
      cases hr : op.numbers args with
      | ok xs => simp [hr, bind, Except.bind, pure, Except.pure] at h
      | error g =>
        obtain rfl : g = f := by simpa [hr, bind, Except.bind] using h
        cases ih hr with
        | arity expected got => exact .arity expected got
        | divisionByZero => exact .divisionByZero
        | moduloByZero => exact .moduloByZero
        | notNumeric hm => exact .notNumeric (.tail _ hm)
        | notNumber hm => exact .notNumber (.tail _ hm)
        | overflow => exact .overflow

/-- The operator comes to a fault that it may find, or else to the value of a number. -/
inductive Yields (op : Operator) (args : List Value) : Except Fault Value → Prop
  | fault {f : Fault} : Finds op args f → Yields op args (.error f)
  | value {v : Value} : IsResult v → Yields op args (.ok v)

theorem yields_bind {α : Type} {x : Except Fault α} {k : α → Except Fault Value}
    (hf : ∀ f, x = .error f → Finds op args f) (hk : ∀ a, Yields op args (k a)) :
    Yields op args (x >>= k) := by
  cases x with
  | error f => exact .fault (hf f rfl)
  | ok a => exact hk a

theorem yields_result (x : Option Number) : Yields op args (op.result x) := by
  simp only [result]
  split
  · rename_i w hw
    obtain ⟨y, -, hy⟩ := Option.bind_eq_some_iff.mp hw
    exact .value (isResult_of_toValue? hy)
  · exact .fault .overflow

theorem yields_foldFrom (neutral : Int64) (step : Number → Number → Option Number) :
    Yields op args (op.foldFrom neutral step args) :=
  yields_bind (fun _ => finds_of_numbers) fun _ => yields_result _

theorem yields_foldFirst {refuse : Option Fault} (hr : ∀ f ∈ refuse, Finds op args f)
    (step : Number → Number → Option Number) :
    Yields op args (op.foldFirst refuse step args) := by
  refine yields_bind (fun _ => finds_of_numbers) fun xs => ?_
  split
  · exact .fault (.arity _ _)
  · split
    · exact .fault (hr _ rfl)
    · exact yields_result _
  · exact yields_result _

theorem finds_of_comparand {a : Value} (ha : a ∈ args) (h : op.comparand a = .error f) :
    Finds op args f := by
  simp only [comparand] at h
  split at h
  · cases h
  · obtain rfl := Except.error.inj h
    exact .notNumeric ha

theorem yields_comparison (accepts : Ordering → Bool) :
    Yields op args (op.comparison accepts args) := by
  match args with
  | [left, right] =>
    refine yields_bind (fun _ => finds_of_comparand (by simp)) fun a => ?_
    exact yields_bind (fun _ => finds_of_comparand (by simp)) fun b => .value (.inl ⟨_, rfl⟩)
  | [] | [_] | _ :: _ :: _ :: _ => exact .fault (.arity _ _)

theorem yields_apply (op : Operator) (args : List Value) : Yields op args (op.apply args) := by
  have hdivision : ∀ f ∈ some Fault.divisionByZero, Finds div args f := by
    rintro _ ⟨⟩
    exact .divisionByZero
  have hmodulo : ∀ f ∈ some Fault.moduloByZero, Finds mod args f := by
    rintro _ ⟨⟩
    exact .moduloByZero
  cases op with
  | add | mul => exact yields_foldFrom _ _
  | sub | pow => exact yields_foldFirst (by simp) _
  | div => exact yields_foldFirst hdivision _
  | mod => exact yields_foldFirst hmodulo _
  | gt | lt | eq | ge | le => exact yields_comparison _

theorem finds_of_apply (h : op.apply args = .error f) : Finds op args f := by
  have hyields := yields_apply op args
  rw [h] at hyields
  cases hyields with
  | fault hf => exact hf

theorem isResult_of_apply (h : op.apply args = .ok v) : IsResult v := by
  have hyields := yields_apply op args
  rw [h] at hyields
  cases hyields with
  | value hv => exact hv

end FlatLisp.Operator
