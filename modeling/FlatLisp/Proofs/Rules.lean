import FlatLisp.Proofs.Loop
import FlatLisp.Proofs.Sequence

/-! Rules for how a form ends, given how what is in it ends. None of them counts steps: each takes
as many as its parts need together. -/
namespace FlatLisp
open Machine Eval Nesting Evaluation

variable {form x : List Token} {xs : List (List Token)} {f : UserFunction (List Token)}
  {o : Options} {s t u : State (List Token)} {v : Value} {args : List Value} {e : Error}
  {r : Except Error Value}

theorem EndsIn.located {x : Nat → Evaluation (List Token) Value} (h : EndsIn x o s (r, t))
    (form : List Token) :
    EndsIn (fun n => Evaluation.located form (x n)) o s (r.mapError (·.locate form), t) := by
  obtain ⟨n, hn⟩ := h
  refine ⟨n, fun steps hle => (located_eq_map ..).trans ?_⟩
  rw [hn steps hle]
  rfl

/-- A program that is one form ends as the form does. -/
theorem EndsIn.ofProgram {p : Except Error Value × State (List Token)} (h : IsForm form)
    (hx : EndsIn (ofNested form) o s p) : EndsIn (Evaluation.ofProgram form) o s p := by
  have hsplit : splitOperands [form].flatten = .ok [form] :=
    splitOperands_flatten (by simpa using .inr h)
  rw [List.flatten_singleton] at hsplit
  obtain ⟨n, hn⟩ := hx
  refine ⟨n, fun steps hle => ?_⟩
  rw [ofProgram_eq_ofForms hsplit, ← hn steps hle]
  obtain ⟨first, inner, last, rfl, -⟩ := h
  cases inner <;> simp only [ofForms, List.nil_append, List.cons_append, evalForms, bind_pure]

/-! Operands. -/

theorem endsIn_number {token : Token} {k : Int64} (ht : token.kind = .number)
    (hk : Integer.read? token.text = some k) :
    EndsIn (ofOperand [token]) o s (.ok (.integer k), s) := by
  refine ⟨0, fun steps _ => ?_⟩
  simp only [ofOperand, evalOperand, evalAtom, ht, integerLiteral, hk]
  rfl

theorem endsIn_symbol {token : Token} (ht : token.kind = .symbol)
    (hv : s.env.lookup token.text = some v) : EndsIn (ofOperand [token]) o s (.ok v, s) := by
  refine ⟨0, fun steps _ => ?_⟩
  simp only [ofOperand, evalOperand, evalAtom, ht, evalSymbol, Bind.bind, Machine.lookup,
    Evaluation.read, hv]
  rfl

/-- Among operands, a form is evaluated as it is. -/
theorem ofOperand_of_enclosed {inner : List Token} (h : enclosed? form = some inner) :
    ofOperand form = ofNested form := by
  obtain ⟨first, last, rfl, ho, -⟩ := enclosed?_eq_some_iff.mp h
  funext steps
  cases inner with
  | nil => simp only [ofOperand, List.nil_append, evalOperand, ho, if_true]
  | cons t ts => simp only [ofOperand, List.cons_append, evalOperand, ho, if_true]

theorem endsIn_operands_nil : EndsIn (ofOperands []) o s (.ok [], s) := ⟨0, fun _ _ => rfl⟩

theorem EndsIn.operands_cons (hx : EndsIn (ofOperand x) o s (.ok v, t))
    (hxs : EndsIn (ofOperands xs) o t (.ok args, u)) :
    EndsIn (ofOperands (x :: xs)) o s (.ok (v :: args), u) :=
  hx.bind_ok (hxs.bind_ok ⟨0, fun _ _ => rfl⟩)

theorem EndsIn.operands_cons_error (hx : EndsIn (ofOperand x) o s (.ok v, t))
    (hxs : EndsIn (ofOperands xs) o t (.error e, u)) :
    EndsIn (ofOperands (x :: xs)) o s (.error e, u) :=
  hx.bind_ok hxs.bind_error

theorem EndsIn.operands_error (hx : EndsIn (ofOperand x) o s (.error e, t)) :
    EndsIn (ofOperands (x :: xs)) o s (.error e, t) := hx.bind_error

theorem EndsIn.sequence_singleton (hx : EndsIn (ofOperand x) o s (r, t)) :
    EndsIn (ofSequence [x]) o s (r, t) := by
  obtain ⟨n, hn⟩ := hx
  refine ⟨n, fun steps hle => ?_⟩
  simp only [ofSequence, evalSequence, bind_pure]
  exact hn steps hle

/-- A program that is one form ends as the form does among operands. -/
theorem EndsIn.program {p : Except Error Value × State (List Token)} (h : IsForm form)
    (hx : EndsIn (ofOperand form) o s p) : EndsIn (Evaluation.ofProgram form) o s p := by
  obtain ⟨first, inner, last, rfl, ho, hc, -⟩ := id h
  rw [ofOperand_of_enclosed (enclosed?_eq_some_iff.mpr ⟨first, last, rfl, ho, hc⟩)] at hx
  exact hx.ofProgram h

/-! Forms that are headed by a builtin. -/
namespace Applies

theorem endsIn {b : Builtin} (h : Applies form b xs)
    (hr : EndsIn (fun n => evalBuiltin (evalForm n) n b xs) o s (r, t)) :
    EndsIn (ofOperand form) o s (r.mapError (·.locate form), t) := by
  obtain ⟨n, hn⟩ := hr.located form
  obtain ⟨head, rest, he, -⟩ := id h
  rw [ofOperand_of_enclosed he]
  refine endsIn_ofNested_iff.mpr ⟨n + 1, ?_⟩
  rw [evalForm_of_applies h]
  exact hn n (Nat.le_refl n)

theorem endsIn_operator {op : Operator} (h : Applies form (.operator op) xs)
    (ha : op.arity.accepts xs.length) (hx : EndsIn (ofOperands xs) o s (.ok args, t))
    (hv : op.apply args = .ok v) : EndsIn (ofOperand form) o s (.ok v, t) := by
  have hend : EndsIn (fun n => evalBuiltin (evalForm n) n (.operator op) xs) o s (.ok v, t) := by
    simp only [evalBuiltin_operator ha]
    exact hx.bind_ok ⟨0, fun _ _ => by rw [hv]; rfl⟩
  exact h.endsIn hend

theorem endsIn_operator_error {op : Operator} (h : Applies form (.operator op) xs)
    (ha : op.arity.accepts xs.length) (hx : EndsIn (ofOperands xs) o s (.error e, t)) :
    EndsIn (ofOperand form) o s (.error (e.locate form), t) := by
  have hend : EndsIn (fun n => evalBuiltin (evalForm n) n (.operator op) xs) o s (.error e, t) := by
    simp only [evalBuiltin_operator ha]
    exact hx.bind_error
  exact h.endsIn hend

variable {condition yes no : List Token}

/-- An `if` with two branches goes on with the one that its condition chooses. -/
theorem endsIn_if (h : Applies form (.special .cond) [condition, yes, no])
    (hc : EndsIn (ofOperand condition) o s (.ok v, t))
    (hr : EndsIn (ofOperand (if v.isTruthy then yes else no)) o t (r, u)) :
    EndsIn (ofOperand form) o s (r.mapError (·.locate form), u) := by
  have ha : SpecialForm.cond.arity.accepts [condition, yes, no].length := rfl
  refine h.endsIn ?_
  simp only [evalBuiltin_special ha, evalSpecial, evalIf]
  refine hc.bind_ok ?_
  cases htrue : v.isTruthy <;> simpa only [htrue, if_true, Bool.false_eq_true, if_false] using hr

/-- A `setq` stores the value of its operand as variables hold it, and has it for its own value. -/
theorem endsIn_setq {name : Token} (h : Applies form (.special .setq) [[name], x])
    (hn : name.kind = .symbol) (hx : EndsIn (ofOperand x) o s (.ok v, t)) :
    EndsIn (ofOperand form) o s
      (.ok v.normalized, { t with env := t.env.assign name.text v.normalized }) := by
  have ha : SpecialForm.setq.arity.accepts [[name], x].length := rfl
  refine h.endsIn (r := .ok v.normalized) ?_
  simp only [evalBuiltin_special ha, evalSpecial, evalSetq, nameOf, hn, if_true, pure_bind]
  exact hx.bind_ok ⟨0, fun _ _ => rfl⟩

/-- A `print` adds a line to the output, and has the value that is printed. -/
theorem endsIn_print (h : Applies form (.special .print) [x])
    (hx : EndsIn (ofOperand x) o s (.ok v, t)) :
    EndsIn (ofOperand form) o s (.ok v, { t with output := t.output.push v.display }) := by
  have ha : SpecialForm.print.arity.accepts [x].length := rfl
  refine h.endsIn (r := .ok v) ?_
  simp only [evalBuiltin_special ha, evalSpecial, evalPrint]
  exact hx.bind_ok ⟨0, fun _ _ => rfl⟩

end Applies

/-! Calls. -/

theorem IsCall.endsIn (h : IsCall s.env form f xs)
    (hx : EndsIn (ofOperands xs) o s (.ok args, t)) (hr : EndsIn (ofInvoke f args) o t (r, u)) :
    EndsIn (ofOperand form) o s (r.mapError (·.locate form), u) := by
  have hcall : EndsIn (fun n => ofOperands xs n >>= fun args => ofInvoke f args n) o s (r, u) :=
    hx.bind_ok hr
  obtain ⟨n, hn⟩ := hcall.located form
  obtain ⟨head, rest, he, -⟩ := id h
  rw [ofOperand_of_enclosed he]
  refine endsIn_ofNested_iff.mpr ⟨n + 1, ?_⟩
  rw [evalForm_of_isCall h]
  exact hn n (Nat.le_refl n)

section Invoke
variable {body : List (List Token)} (hl : args.length = f.parameters.length)
  (hs : splitOperands f.body = .ok body)
include hl hs

theorem ofInvoke_eq_called (steps : Nat) :
    ofInvoke f args steps = called
      (bindParameters f.parameters args >>= fun _ => ofSequence body steps) := by
  simp only [ofInvoke, invoke, hl, if_true, hs, Machine.ofExcept, pure_bind, inCall]

theorem endsIn_invoke_refused {fault : Fault} (he : s.env.enter = .error fault) :
    EndsIn (ofInvoke f args) o s (.error (.bare fault), s) := by
  refine ⟨0, fun steps _ => ?_⟩
  rw [ofInvoke_eq_called hl hs]
  simp only [called, he]

theorem endsIn_invoke {env : Environment (List Token)} (he : s.env.enter = .ok env)
    (hr : EndsIn (fun n => bindParameters f.parameters args >>= fun _ => ofSequence body n) o
      { s with env := env.pushCall o.callScope } (r, t)) :
    EndsIn (ofInvoke f args) o s (r, { t with env := t.env.pop.exit }) := by
  obtain ⟨n, hn⟩ := hr
  refine ⟨n, fun steps hle => ?_⟩
  rw [ofInvoke_eq_called hl hs]
  simp only [called, he, hn steps hle]

end Invoke

end FlatLisp
