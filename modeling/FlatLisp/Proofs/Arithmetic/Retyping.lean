import FlatLisp.Proofs.Arithmetic
import FlatLisp.Proofs.Rules

/-! Values as variables hold them. A text that reads as an integer is held as the integer, which no
operator and no condition can tell from the text. -/
namespace FlatLisp
open Eval Nesting Evaluation

namespace Value
variable {v w : Value}

/-- An operator cannot tell the values apart: they are the same number to it, or else one value. -/
def SameOperand (v w : Value) : Prop :=
  v = w ∨ ∃ x, Number.ofValue? v = some x ∧ Number.ofValue? w = some x

/-- Whatever a program decides or calculates from values, one may stand for the other. -/
structure Alike (v w : Value) : Prop where
  truth : v.isTruthy = w.isTruthy
  integer : v.toInteger? = w.toInteger?
  operand (op : Operator) (before after : List Value) :
    op.apply (before ++ v :: after) = op.apply (before ++ w :: after)

/-- The only values that are held as others. -/
theorem normalized_cases (v : Value) :
    v.normalized = v ∨
      ∃ text n, v = .text text ∧ Integer.read? text = some n ∧ v.normalized = .integer n := by
  cases v with
  | integer n => exact .inl rfl
  | text s =>
    cases hs : Integer.read? s with
    | none => exact .inl (by simp only [normalized, ofText, hs])
    | some n => exact .inr ⟨s, n, rfl, hs, by simp only [normalized, ofText, hs]⟩

theorem toInteger?_normalized (v : Value) : v.normalized.toInteger? = v.toInteger? := by
  rcases normalized_cases v with h | ⟨text, n, rfl, hread, h⟩
  · rw [h]
  · rw [h]
    exact hread.symm

theorem normalized_of_toInteger? {n : Int64} (h : v.toInteger? = some n) :
    v.normalized = .integer n := by
  cases v with
  | integer m => exact congrArg integer (Option.some.inj h)
  | text s =>
    have hs : Integer.read? s = some n := h
    simp only [normalized, ofText, hs]

/-- The empty text, which is false without being a zero, does not read as an integer. -/
theorem isTruthy_normalized (v : Value) : v.normalized.isTruthy = v.isTruthy := by
  rcases normalized_cases v with h | ⟨text, n, rfl, hread, h⟩
  · rw [h]
  · have hne : text.isEmpty = false := by
      rw [Bool.eq_false_iff]
      intro he
      obtain rfl := String.isEmpty_iff.mp he
      cases hread
    simp only [h, isTruthy, hne, hread, Bool.false_eq_true, if_false]

theorem sameOperand_normalized (v : Value) : SameOperand v.normalized v := by
  rcases normalized_cases v with h | ⟨text, n, rfl, hread, h⟩
  · exact .inl h
  · refine .inr ⟨.int n, ?_, ofValue?_of_toInteger? hread⟩
    rw [h]
    rfl

end Value

namespace Operator
variable {args others : List Value} {v w : Value}

theorem numbers_congr (op : Operator) (h : List.Forall₂ Value.SameOperand args others) :
    op.numbers args = op.numbers others := by
  induction h with
  | nil => rfl
  | cons hv _ ih =>
    rcases hv with rfl | ⟨x, hx, hy⟩
    · simp only [numbers, ih]
    · simp only [numbers, hx, hy, ih]

theorem comparand_congr (op : Operator) (h : v.SameOperand w) :
    op.comparand v = op.comparand w := by
  rcases h with rfl | ⟨x, hx, hy⟩
  · rfl
  · simp only [comparand, hx, hy]

theorem comparison_congr (op : Operator) (accepts : Ordering → Bool)
    (h : List.Forall₂ Value.SameOperand args others) :
    op.comparison accepts args = op.comparison accepts others := by
  cases h with
  | nil => rfl
  | cons hleft h =>
    cases h with
    | nil => rfl
    | cons hright h =>
      cases h with
      | nil => simp only [comparison, comparand_congr op hleft, comparand_congr op hright]
      | cons _ h => simp only [comparison, List.length_cons, h.length_eq]

/-- An operator comes to the same, be it a value or a fault, on operands that it cannot tell from
its own. -/
theorem apply_congr (op : Operator) (h : List.Forall₂ Value.SameOperand args others) :
    op.apply args = op.apply others := by
  cases op with
  | add | mul => simp only [apply, foldFrom, numbers_congr _ h]
  | sub | div | pow | mod => simp only [apply, foldFirst, numbers_congr _ h]
  | gt | lt | eq | ge | le => exact comparison_congr _ _ h

theorem apply_map_normalized (op : Operator) (args : List Value) :
    op.apply (args.map Value.normalized) = op.apply args := by
  apply apply_congr
  rw [List.forall₂_map_left_iff, List.forall₂_same]
  intro v _
  exact v.sameOperand_normalized

end Operator

theorem Value.alike_normalized (v : Value) : Alike v.normalized v where
  truth := v.isTruthy_normalized
  integer := v.toInteger?_normalized
  operand op before after := by
    have hrefl (vs : List Value) : List.Forall₂ SameOperand vs vs :=
      List.forall₂_same.mpr fun _ _ => .inl rfl
    apply op.apply_congr
    exact List.rel_append (hrefl before) (.cons v.sameOperand_normalized (hrefl after))

variable {names : List String} {args : List Value} {o : Options} {s t : State (List Token)}

/-- Parameters that differ hold their arguments, and no other variable is touched. -/
theorem exists_bound (o : Options) (s : State (List Token)) (hn : names.Nodup)
    (hl : names.length = args.length) :
    ∃ t, (bindParameters names args : Evaluation (List Token) Unit) o s = some (.ok (), t) ∧
      (∀ other, other ∉ names → t.env.lookup other = s.env.lookup other) ∧
      List.Forall₂ (fun name v => t.env.lookup name = some v.normalized) names args := by
  induction names generalizing args s with
  | nil =>
    obtain rfl := List.eq_nil_of_length_eq_zero hl.symm
    exact ⟨s, rfl, fun _ _ => rfl, .nil⟩
  | cons name names ih =>
    cases args with
    | nil => cases hl
    | cons v args =>
      obtain ⟨hfresh, hn⟩ := List.nodup_cons.mp hn
      obtain ⟨t, ht, hothers, hbound⟩ :=
        ih { s with env := s.env.assign name v.normalized } hn (Nat.succ.inj hl)
      refine ⟨t, ht, ?_, .cons ?_ hbound⟩
      · intro other hother
        obtain ⟨hne, hother⟩ := not_or.mp (mt List.mem_cons.mpr hother)
        rw [hothers other hother, Environment.lookup_assign, if_neg (Ne.symm hne)]
      · rw [hothers name hfresh, Environment.lookup_assign, if_pos rfl]

/-- The body of a call runs where the parameters hold the arguments. -/
theorem exists_endsIn_invoke {f : UserFunction (List Token)} {body : List (List Token)}
    {env : Environment (List Token)} (hn : f.parameters.Nodup)
    (hl : args.length = f.parameters.length) (hb : splitOperands f.body = .ok body)
    (he : s.env.enter = .ok env) :
    ∃ t : State (List Token), (∀ r u, EndsIn (ofSequence body) o t (r, u) →
        EndsIn (ofInvoke f args) o s (r, { u with env := u.env.pop.exit })) ∧
      List.Forall₂ (fun name v => t.env.lookup name = some v.normalized) f.parameters args := by
  obtain ⟨t, ht, -, hbound⟩ := exists_bound o { s with env := env.pushCall o.callScope } hn hl.symm
  refine ⟨t, fun r u hbody => ?_, hbound⟩
  apply endsIn_invoke hl hb he
  exact EndsIn.bind_ok (f := fun n _ => ofSequence body n) ⟨0, fun _ _ => ht⟩ hbody

/-- Holding a value as variables do changes neither its truth nor its integer, and operators come to
the same, value or fault, if all of their operands are held. So a variable holds after a `setq`, and
a parameter in the body of a call, what operators and conditions treat as the given value. -/
theorem retyping_is_invisible :
    (∀ v : Value, v.normalized.isTruthy = v.isTruthy ∧ v.normalized.toInteger? = v.toInteger?) ∧
    (∀ (op : Operator) args, op.apply (args.map Value.normalized) = op.apply args) ∧
    (∀ form name x o s v t, Applies form (.special .setq) [[name], x] → name.kind = .symbol →
      EndsIn (ofOperand x) o s (.ok v, t) →
      ∃ w u, EndsIn (ofOperand form) o s (.ok w, u) ∧ u.env.lookup name.text = some w ∧
        w.Alike v) ∧
    ∀ (f : UserFunction (List Token)) args body o (s : State (List Token)) env,
      f.parameters.Nodup → args.length = f.parameters.length → splitOperands f.body = .ok body →
      s.env.enter = .ok env →
      ∃ t : State (List Token), (∀ r u, EndsIn (ofSequence body) o t (r, u) →
          EndsIn (ofInvoke f args) o s (r, { u with env := u.env.pop.exit })) ∧
        List.Forall₂ (fun name v => ∃ w, t.env.lookup name = some w ∧ w.Alike v)
          f.parameters args := by
  refine ⟨fun v => ⟨v.isTruthy_normalized, v.toInteger?_normalized⟩,
    Operator.apply_map_normalized, ?_, ?_⟩
  · intro form name x o s v t happlies hname hx
    refine ⟨v.normalized, _, happlies.endsIn_setq hname hx, ?_, v.alike_normalized⟩
    rw [Environment.lookup_assign, if_pos rfl]
  · intro f args body o s env hn hl hb he
    obtain ⟨t, hbody, hbound⟩ := exists_endsIn_invoke (o := o) hn hl hb he
    exact ⟨t, hbody, hbound.imp fun _ v hv => ⟨_, hv, v.alike_normalized⟩⟩

/-- A difference of two parameters. -/
def difference : UserFunction (List Token) := ⟨"difference", ["m", "n"], Lexer.cut "(- m n)".toList⟩

/-- A symbol that is its own text, which reads as an integer, and arguments of which one is a zero
and the other no integer. -/
theorem retyping_is_invisible_signed :
    (∃ w u, EndsIn (ofOperand (headedBy "setq" [[⟨.symbol, "k"⟩], [⟨.symbol, "+007"⟩]])) {}
        { env := {} } (.ok w, u) ∧ u.env.lookup "k" = some w ∧ w.Alike (.text "+007")) ∧
    ∃ t : State (List Token), (∀ r u, EndsIn (ofSequence [difference.body]) {} t (r, u) →
        EndsIn (ofInvoke difference [.text "-0", .text "1.50"]) {} { env := {} }
          (r, { u with env := u.env.pop.exit })) ∧
      List.Forall₂ (fun name v => ∃ w, t.env.lookup name = some w ∧ w.Alike v) ["m", "n"]
        [.text "-0", .text "1.50"] := by
  obtain ⟨-, -, hsetq, hcall⟩ := retyping_is_invisible
  refine ⟨?_, ?_⟩
  · refine hsetq _ ⟨.symbol, "k"⟩ [⟨.symbol, "+007"⟩] {} { env := {} } (.text "+007") { env := {} }
      (applies_headedBy (.special .setq) ?_) rfl ⟨0, fun _ _ => rfl⟩
    have hname : IsOperand [⟨.symbol, "k"⟩] := .atom (by decide) (by decide)
    have hvalue : IsOperand [⟨.symbol, "+007"⟩] := .atom (by decide) (by decide)
    simpa using ⟨hname, hvalue⟩
  · exact hcall difference _ _ {} { env := {} } { depth := 1 } (by decide) rfl (by decide +kernel)
      rfl

end FlatLisp
