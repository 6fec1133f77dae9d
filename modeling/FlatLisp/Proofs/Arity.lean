import FlatLisp.Proofs.Context

/-! Numbers of operands. They are accepted or refused before an operation is evaluated, and each
operation counts them once more by itself, with the same fault for a number that it refuses. -/
namespace FlatLisp
open Machine Eval Nesting Evaluation

variable {name : String} {count : Nat} {f : Fault} {arity : Arity}

theorem Arity.validate_eq_ok_iff : arity.validate name count = .ok () ↔ arity.accepts count := by
  simp [validate]

theorem Arity.validate_eq_error_iff : arity.validate name count = .error f ↔
    arity.accepts count = false ∧ f = .arityMismatch name arity count := by
  unfold validate
  cases arity.accepts count <;> simp [eq_comm]

theorem error_of_bind {α γ : Type} {x : Except Fault α} {k : α → Except Fault γ}
    (h : (x >>= k) = .error f) : x = .error f ∨ ∃ a, x = .ok a ∧ k a = .error f := by
  cases x with
  | error g =>
    obtain rfl : g = f := Except.error.inj h
    exact .inl rfl
  | ok a => exact .inr ⟨a, rfl, h⟩

namespace Operator
variable {op : Operator} {args : List Value} {v : Value}
  {step : Number → Number → Option Number} {refuse : Option Fault}

theorem foldFirst_of_empty (h : ¬ 1 ≤ args.length) :
    op.foldFirst refuse step args = .error (.arityMismatch op.symbol (.atLeast 1) args.length) := by
  obtain rfl : args = [] := List.length_eq_zero_iff.mp (by omega)
  rfl

theorem comparison_of_length_ne {accepts : Ordering → Bool} (h : args.length ≠ 2) :
    op.comparison accepts args =
      .error (.arityMismatch op.symbol (.exact 2) args.length) := by
  match args with
  | [_, _] => exact absurd rfl h
  | [] | [_] | _ :: _ :: _ :: _ => rfl

/-- An operator counts its operands as the list of builtins does. -/
theorem apply_of_not_accepts (h : op.arity.accepts args.length = false) :
    op.apply args = .error (.arityMismatch op.symbol op.arity args.length) := by
  cases op with
  | add | mul => cases h
  | sub | div | pow | mod => exact foldFirst_of_empty (of_decide_eq_false h)
  | gt | lt | eq | ge | le => exact comparison_of_length_ne (of_decide_eq_false h)

/-- The first operand is a number and the others are, or else one of them is a fault. -/
theorem numbers_cons (v : Value) (args : List Value) :
    op.numbers (v :: args) =
      match Number.ofValue? v with
      | some x => (op.numbers args).map (x :: ·)
      | none => .error (.invalidOperand op.symbol v.display) := by
  simp only [numbers]
  cases Number.ofValue? v with
  | none => rfl
  | some x => cases op.numbers args <;> rfl

theorem kind_of_numbers (h : op.numbers args = .error f) : f.kind = .invalidOperand := by
  induction args with
  | nil => cases h
  | cons v args ih =>
    rw [numbers_cons] at h
    split at h
    · cases hargs : op.numbers args with
      | error g =>
        obtain rfl : g = f := by simpa [hargs, Except.map] using h
        exact ih hargs
      | ok xs => simp [hargs, Except.map] at h
    · obtain rfl := Except.error.inj h
      rfl

theorem eq_nil_of_numbers (h : op.numbers args = .ok []) : args = [] := by
  cases args with
  | nil => rfl
  | cons v args =>
    rw [numbers_cons] at h
    split at h
    · cases hargs : op.numbers args <;> simp [hargs, Except.map] at h
    · cases h

theorem kind_of_result {x : Option Number} (h : op.result x = .error f) :
    f.kind = .arithmeticOverflow := by
  simp only [result] at h
  split at h
  · cases h
  · obtain rfl := Except.error.inj h
    rfl

theorem kind_of_comparand (h : op.comparand v = .error f) : f.kind = .nonNumericComparison := by
  simp only [comparand] at h
  split at h
  · cases h
  · obtain rfl := Except.error.inj h
    rfl

theorem foldFrom_counted {neutral : Int64} (h : op.foldFrom neutral step args = .error f) :
    f.kind ≠ .arityMismatch := by
  obtain hn | ⟨xs, -, hr⟩ := error_of_bind h
  · simp [kind_of_numbers hn]
  · simp [kind_of_result hr]

theorem foldFirst_counted (hne : 1 ≤ args.length)
    (hrefuse : ∀ g ∈ refuse, g.kind ≠ .arityMismatch)
    (h : op.foldFirst refuse step args = .error f) : f.kind ≠ .arityMismatch := by
  obtain hn | ⟨xs, hxs, hr⟩ := error_of_bind h
  · simp [kind_of_numbers hn]
  · split at hr
    · rw [eq_nil_of_numbers hxs] at hne
      cases hne
    · split at hr
      · obtain rfl := Except.error.inj hr
        exact hrefuse _ rfl
      · simp [kind_of_result hr]
    · simp [kind_of_result hr]

theorem comparison_counted {accepts : Ordering → Bool} (hlength : args.length = 2)
    (h : op.comparison accepts args = .error f) : f.kind ≠ .arityMismatch := by
  match args with
  | [left, right] =>
    obtain hl | ⟨a, -, h⟩ := error_of_bind h
    · simp [kind_of_comparand hl]
    · obtain hr | ⟨b, -, h⟩ := error_of_bind h
      · simp [kind_of_comparand hr]
      · cases h
  | [] | [_] | _ :: _ :: _ :: _ => simp at hlength

/-- An operator finds no fault with the number of its operands where the list of builtins does
not. -/
theorem apply_counted (ha : op.arity.accepts args.length) (h : op.apply args = .error f) :
    f.kind ≠ .arityMismatch := by
  cases op with
  | add | mul => exact foldFrom_counted h
  | sub | pow =>
    refine foldFirst_counted (of_decide_eq_true ha) ?_ h
    simp
  | div | mod =>
    refine foldFirst_counted (of_decide_eq_true ha) ?_ h
    rintro _ ⟨⟩
    nofun
  | gt | lt | eq | ge | le => exact comparison_counted (of_decide_eq_true ha) h

end Operator

/-! Special forms. -/

/-- The error tells of a number of operands only if it is one of a form, which may be the form of
any operation within. -/
def Error.Counted (e : Error) : Prop := e.context = [] → e.kind ≠ .arityMismatch

section Special
variable {α β : Type} {form : SpecialForm} {operands : List (List Token)} {steps rounds : Nat}

theorem Error.counted_bare (h : f.kind ≠ .arityMismatch) : (Error.bare f).Counted := fun _ => h

theorem counted_malformed (cause : Malformation) :
    Raises Error.Counted (malformed cause : Evaluation β α) := .fail (Error.counted_bare nofun)

theorem counted_evalForm (steps : Nat) (x : List Token) :
    Raises Error.Counted (ofNested x steps) := fun _ _ _ _ h hbare =>
  absurd hbare (context_ne_nil_of_evalForm h)

theorem counted_evalOperand (steps : Nat) (x : List Token) :
    Raises Error.Counted (evalOperand (evalForm steps) x : Evaluation (List Token) Value) := by
  match x with
  | [] => exact counted_malformed _
  | [t] =>
    simp only [evalOperand, evalAtom]
    cases t.kind with
    | number =>
      simp only [integerLiteral]
      split
      · exact .pure _
      · exact counted_malformed _
    | symbol => exact .bind (.of_ok fun _ s => ⟨_, s, rfl⟩) fun _ => .pure _
    | opening | closing => exact counted_malformed _
  | t :: u :: ts =>
    simp only [evalOperand]
    split
    · exact counted_evalForm steps _
    · exact counted_malformed _

theorem counted_evalSequence (steps : Nat) (last : Value) (xs : List (List Token)) :
    Raises Error.Counted
      (evalSequence (evalForm steps) last xs : Evaluation (List Token) Value) := by
  induction xs generalizing last with
  | nil => exact .pure last
  | cons x xs ih => exact (counted_evalOperand steps x).bind fun v => ih v

theorem counted_loop {condition body : Evaluation β Value} (hc : Raises Error.Counted condition)
    (hb : Raises Error.Counted body) (rounds : Nat) :
    Raises Error.Counted (loop condition body rounds 0 (.integer 0)) :=
  .loop (fun _ => Error.counted_bare nofun) hc hb rounds 0 _

theorem counted_nameOf (form : SpecialForm) (target : List Token) :
    Raises Error.Counted (nameOf form target : Evaluation (List Token) String) := by
  match target with
  | [t] =>
    simp only [nameOf]
    split
    · exact .pure _
    · exact counted_malformed _
  | [] | _ :: _ :: _ => exact counted_malformed _

theorem counted_evalDefun (target parameterList : List Token) (body : List (List Token)) :
    Raises Error.Counted
      (evalDefun (target :: parameterList :: body) : Evaluation (List Token) Value) := by
  refine (counted_nameOf .defun target).bind fun name => ?_
  split
  · exact counted_malformed _
  · split
    · exact counted_malformed _
    · split
      · exact counted_malformed _
      · exact .bind (.of_ok fun _ s => ⟨_, _, rfl⟩) fun _ => .pure _

/-- A special form never tells of the number of its own operands where the list of builtins accepts
it. -/
theorem counted_evalSpecial (ha : form.arity.accepts operands.length) :
    Raises Error.Counted (ofSpecial form operands rounds steps) := by
  have heval := counted_evalOperand steps
  cases form with
  | setq =>
    match operands with
    | [target, x] =>
      refine (counted_nameOf .setq target).bind fun name => (heval x).bind fun v => ?_
      exact .bind (.of_ok fun _ s => ⟨_, _, rfl⟩) fun _ => .pure _
    | [] | [_] | _ :: _ :: _ :: _ => simp [SpecialForm.arity, Arity.accepts] at ha
  | print =>
    match operands with
    | [x] =>
      refine (heval x).bind fun v => ?_
      exact .bind (.of_ok fun _ s => ⟨_, _, rfl⟩) fun _ => .pure _
    | [] | _ :: _ :: _ => simp [SpecialForm.arity, Arity.accepts] at ha
  | defun =>
    match operands with
    | target :: parameterList :: body => exact counted_evalDefun target parameterList body
    | [] | [_] => simp [SpecialForm.arity, Arity.accepts] at ha
  | cond =>
    match operands with
    | [condition, yes] =>
      refine (heval condition).bind fun c => ?_
      split
      · exact heval yes
      · exact .pure _
    | [condition, yes, no] =>
      refine (heval condition).bind fun c => ?_
      split
      · exact heval yes
      · exact heval no
    | [] | [_] => simp [SpecialForm.arity, Arity.accepts] at ha
    | _ :: _ :: _ :: _ :: _ => grind [SpecialForm.arity, Arity.accepts]
  | loopWhile =>
    match operands with
    | condition :: body =>
      exact counted_loop (heval condition) (counted_evalSequence steps _ body) rounds
    | [] => simp [SpecialForm.arity, Arity.accepts] at ha
  | loopFor =>
    match operands with
    | [start, condition, body, update] =>
      have hround : Raises Error.Counted (forRound (evalForm steps) body update) :=
        (heval body).bind fun v => (heval update).bind fun _ => .pure v
      exact (heval start).bind fun _ => counted_loop (heval condition) hround rounds
    | [] | [_] | [_, _] | [_, _, _] | _ :: _ :: _ :: _ :: _ :: _ =>
      simp [SpecialForm.arity, Arity.accepts] at ha

/-- Where a special form counts its operands as the list of builtins does, it has no effect on any
machine but to fail. -/
theorem evalSpecial_of_not_accepts {m : Type → Type} [Machine (List Token) m]
    (self : List Token → m Value) (rounds : Nat)
    (h : form.arity.accepts operands.length = false)
    (hd : ¬ (form = .defun ∧ operands.length = 2))
    (hw : ¬ (form = .loopWhile ∧ operands.length = 1)) :
    evalSpecial self rounds form operands =
      fail (.arityMismatch form.symbol form.arity operands.length) := by
  cases form with
  | setq =>
    match operands with
    | [_, _] => simp [SpecialForm.arity, Arity.accepts] at h
    | [] | [_] | _ :: _ :: _ :: _ => rfl
  | print =>
    match operands with
    | [_] => simp [SpecialForm.arity, Arity.accepts] at h
    | [] | _ :: _ :: _ => rfl
  | defun =>
    match operands with
    | [_, _] => exact absurd ⟨rfl, rfl⟩ hd
    | _ :: _ :: _ :: _ => simp [SpecialForm.arity, Arity.accepts] at h
    | [] | [_] => rfl
  | cond =>
    match operands with
    | [_, _] | [_, _, _] => simp [SpecialForm.arity, Arity.accepts] at h
    | [] | [_] | _ :: _ :: _ :: _ :: _ => rfl
  | loopWhile =>
    match operands with
    | [_] => exact absurd ⟨rfl, rfl⟩ hw
    | _ :: _ :: _ => simp [SpecialForm.arity, Arity.accepts] at h
    | [] => rfl
  | loopFor =>
    match operands with
    | [_, _, _, _] => simp [SpecialForm.arity, Arity.accepts] at h
    | [] | [_] | [_, _] | [_, _, _] | _ :: _ :: _ :: _ :: _ :: _ => rfl

/-- A definition without a body is malformed, if it is not so for another reason. -/
theorem ofSpecial_defun_of_no_body (target parameterList : List Token) (o : Options)
    (s : State (List Token)) :
    ∃ cause, ofSpecial .defun [target, parameterList] rounds steps o s =
      some (.error (.bare (.malformed cause)), s) := by
  simp only [ofSpecial, evalSpecial, evalDefun]
  match target with
  | [t] =>
    by_cases hk : t.kind = .symbol
    · simp only [nameOf, hk, if_true, pure_bind]
      split
      · exact ⟨_, rfl⟩
      · cases parametersOf t.text parameterList <;> exact ⟨_, rfl⟩
    · simp only [nameOf, hk, if_false]
      exact ⟨_, rfl⟩
  | [] | _ :: _ :: _ => exact ⟨_, rfl⟩

end Special

/-- Each builtin counts its operands by itself as the list of builtins does. It fails with the same
fault for every number that is refused there, before it does anything else, and never does so at its
own level for a number that is accepted. A special form has two exceptions: a definition with a name
and parameters only is malformed, since it is its body that is missing, and nothing is said of a
`while` that has only a condition. -/
theorem guards_agree_with_registry :
    (∀ (op : Operator) (args : List Value),
      (∀ f, op.arity.validate op.symbol args.length = .error f → op.apply args = .error f) ∧
      (op.arity.validate op.symbol args.length = .ok () →
        ∀ f, op.apply args = .error f → f.kind ≠ .arityMismatch)) ∧
    (∀ (form : SpecialForm) (operands : List (List Token)),
      ¬ (form = .defun ∧ operands.length = 2) → ¬ (form = .loopWhile ∧ operands.length = 1) →
      ∀ f, form.arity.validate form.symbol operands.length = .error f →
        ∀ (m : Type → Type) [Machine (List Token) m] (self : List Token → m Value) (rounds : Nat),
          evalSpecial self rounds form operands = fail f) ∧
    (∀ (form : SpecialForm) (operands : List (List Token)),
      form.arity.validate form.symbol operands.length = .ok () →
      ∀ rounds steps o s e t, ofSpecial form operands rounds steps o s = some (.error e, t) →
        e.context = [] → e.kind ≠ .arityMismatch) ∧
    ∀ (target parameterList : List Token) (rounds steps : Nat) (o : Options)
      (s : State (List Token)), ∃ cause,
      ofSpecial .defun [target, parameterList] rounds steps o s =
        some (.error (.bare (.malformed cause)), s) := by
  refine ⟨fun op args => ⟨?_, ?_⟩, ?_, ?_, ?_⟩
  · intro f h
    obtain ⟨hrefused, rfl⟩ := Arity.validate_eq_error_iff.mp h
    exact Operator.apply_of_not_accepts hrefused
  · intro h f hf
    exact Operator.apply_counted (Arity.validate_eq_ok_iff.mp h) hf
  · intro form operands hd hw f h m _ self rounds
    obtain ⟨hrefused, rfl⟩ := Arity.validate_eq_error_iff.mp h
    exact evalSpecial_of_not_accepts self rounds hrefused hd hw
  · intro form operands h rounds steps o s e t
    exact counted_evalSpecial (Arity.validate_eq_ok_iff.mp h) o s e t
  · intro target parameterList rounds steps o s
    exact ofSpecial_defun_of_no_body target parameterList o s

/-- The operands of `(defun f ())`. -/
def bodiless : List (List Token) := [[⟨.symbol, "f"⟩], [.openParen, .closeParen]]

/-- The operands of `(setq x (print))`, of which one has a wrong number of operands itself. -/
def miscounted : List (List Token) :=
  [[⟨.symbol, "x"⟩], [.openParen, ⟨.symbol, "print"⟩, .closeParen]]

theorem guards_agree_with_registry_miscounted :
    Operator.gt.apply [.integer 1, .integer 2, .integer 3] =
      .error (.arityMismatch ">" (.exact 2) 3) ∧
    (∀ self : List Token → Evaluation (List Token) Value,
      evalSpecial self 0 .cond [[], [], [], []] = fail (.arityMismatch "if" (.range 2 3) 4)) ∧
    ∃ e t, ofSpecial .setq miscounted 0 1 {} { env := {} } = some (.error e, t) ∧
      e.kind = .arityMismatch ∧ e.context ≠ [] := by
  obtain ⟨hoperators, hrefused, haccepted, -⟩ := guards_agree_with_registry
  have hkind : (ofSpecial .setq miscounted 0 1 {} { env := {} }).bind (faultOf? ·.1) =
      some (.arityMismatch "print" (.exact 1) 0) := by
    decide +kernel
  obtain ⟨⟨r, t⟩, hr, he⟩ := Option.bind_eq_some_iff.mp hkind
  refine ⟨(hoperators .gt _).1 _ rfl, fun self => ?_, ?_⟩
  · exact hrefused .cond [[], [], [], []] nofun nofun _ rfl _ self 0
  · cases r with
    | ok v => cases he
    | error e =>
      have hmiscount : e.kind = .arityMismatch := congrArg Fault.kind (Option.some.inj he)
      refine ⟨e, t, hr, hmiscount, fun hbare => ?_⟩
      exact haccepted .setq miscounted rfl 0 1 _ _ e t hr hbare hmiscount

/-- A definition without a body has a number of operands that is refused, but by itself it fails for
the body that is missing. -/
theorem guards_disagree_on_missing_body :
    ¬ ∀ (form : SpecialForm) (operands : List (List Token)) (f : Fault),
      form.arity.validate form.symbol operands.length = .error f →
      ∀ rounds steps o s,
        ofSpecial form operands rounds steps o s = some (.error (.bare f), s) := by
  intro h
  have hcount := h .defun bodiless _ rfl 0 0 {} { env := {} }
  have hbody : (ofSpecial .defun bodiless 0 0 {} { env := {} }).bind (faultOf? ·.1) =
      some (.malformed (.noBody "f")) := by
    decide +kernel
  rw [hcount] at hbody
  cases hbody

end FlatLisp
