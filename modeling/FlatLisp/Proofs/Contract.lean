import FlatLisp.Proofs.Coupling.Special
import FlatLisp.Proofs.Nesting.Form
import FlatLisp.Proofs.Operator

/-! Contracts: what holds of everything that an evaluator does on a machine as soon as it holds of
the effects. A contract looks at one machine only, but it knows more than a coupling: what a fault
quotes, and that the tokens that are evaluated as a form are one. -/
namespace FlatLisp
open Machine Eval Nesting

def Imbalance.QuotesOnly (Q : String → Prop) : Imbalance → Prop
  | strayClose _ | unclosed _ | unmatchedOpen _ | unexpectedClose _ => True
  | described detail => Q detail

def Malformation.QuotesOnly (Q : String → Prop) : Malformation → Prop
  | emptyInput | noOpenParen _ | emptyExpression | headClose => True
  | startsWithAtom text | bareTopLevel text | parenOperand text => Q text
  | numberApplied literal | literalRange literal => Q literal
  | variableApplied name | redefinesBuiltin name => Q name
  | tokensAfter tokens | notParenthesized tokens | notAnOperand tokens => ∀ t ∈ tokens, Q t.text
  | nameExpected form found => Q form ∧ ∀ t ∈ found, Q t.text
  | noParameterList function found => Q function ∧ ∀ t ∈ found, Q t.text
  | parameterNotName function text => Q function ∧ Q text
  | duplicateParameter name function => Q name ∧ Q function
  | noBody function => Q function
  | described detail => Q detail

/-- All texts that the fault quotes, one by one, have a property. -/
def Fault.QuotesOnly (Q : String → Prop) : Fault → Prop
  | unbalanced cause => cause.QuotesOnly Q
  | malformed cause => cause.QuotesOnly Q
  | unknownCommand name => Q name
  | arityMismatch name _ _ => Q name
  | divisionByZero | moduloByZero | recursionLimit _ | iterationLimit _ => True
  | nonNumericComparison op operand | invalidOperand op operand => Q op ∧ Q operand
  | arithmeticOverflow op => Q op

/-- A vocabulary with the tokens that may stand in code, and with the texts that faults may
quote. -/
structure Lexicon extends Vocabulary where
  Word : Token → Prop
  Quotable : String → Prop
  name {t : Token} : Word t → t.kind = .symbol → Name t.text
  quotable {t : Token} : Word t → Quotable t.text
  display {v : Value} : Good v → Quotable v.display
  builtin (b : Builtin) : Quotable b.symbol

namespace Lexicon
variable (L : Lexicon)

/-- The tokens stand in the source, and all of them are words. -/
structure Part (source x : List Token) : Prop where
  isInfix : x <:+: source
  word : ∀ t ∈ x, L.Word t

/-- Operands that stand in the source. -/
def Operands (source : List Token) (xs : List (List Token)) : Prop :=
  ∀ x ∈ xs, IsOperand x ∧ L.Part source x

variable {L} {source form x : List Token} {xs : List (List Token)}

theorem quotable_of_name {name : String} (h : L.Name name) : L.Quotable name :=
  L.display (L.text h)

theorem Part.self (h : ∀ t ∈ source, L.Word t) : L.Part source source :=
  ⟨List.infix_rfl, h⟩

theorem Part.of_isInfix (h : L.Part source form) (hx : x <:+: form) : L.Part source x :=
  ⟨hx.trans h.isInfix, fun t ht => h.word t (hx.subset ht)⟩

theorem Part.quotable (h : L.Part source x) : ∀ t ∈ x, L.Quotable t.text := fun t ht =>
  L.quotable (h.word t ht)

theorem Part.operands (h : L.Part source form) (hr : RunOf form xs) : L.Operands source xs :=
  fun _ hx => ⟨hr.isOperand hx, h.of_isInfix (hr.isInfix_of_mem hx)⟩

theorem Part.operands_of_split (h : L.Part source form) (hs : splitOperands form = .ok xs) :
    L.Operands source xs := by
  intro x hx
  refine ⟨isOperand_of_splitOperands hs hx, h.of_isInfix ?_⟩
  rw [← flatten_of_splitOperands hs]
  exact isInfix_flatten_of_mem hx

theorem Operands.head (h : L.Operands source (x :: xs)) : IsOperand x ∧ L.Part source x :=
  h x (by simp)

theorem Operands.tail (h : L.Operands source (x :: xs)) : L.Operands source xs :=
  fun y hy => h y (by simp [hy])

end Lexicon

/-- A property of evaluations on a machine, together with one of their results. The evaluation goes
on in some source: the tokens that were handed to the machine, or the body of the function whose
call is the innermost one. -/
structure Contract (L : Lexicon) (m : Type → Type) [Machine (List Token) m] where
  Stored : UserFunction (List Token) → Prop
  Holds {α : Type} : List Token → (α → Prop) → m α → Prop
  stored_name {f : UserFunction (List Token)} : Stored f → L.Quotable f.name
  stored_parameter {f : UserFunction (List Token)} : Stored f → ∀ p ∈ f.parameters, L.Name p
  stored_body {f : UserFunction (List Token)} : Stored f → ∀ t ∈ f.body, L.Word t
  defined {source : List Token} {xs : List (List Token)} {f : UserFunction (List Token)} :
    L.Operands source xs → Defines xs f → Stored f
  pure {α : Type} {source : List Token} {P : α → Prop} {a : α} :
    P a → Holds source P (Pure.pure a)
  bind {α γ : Type} {source : List Token} {P : α → Prop} {Q : γ → Prop} {x : m α} {f : α → m γ} :
    Holds source P x → (∀ a, P a → Holds source Q (f a)) → Holds source Q (x >>= f)
  exhausted {α : Type} {source : List Token} {P : α → Prop} :
    Holds source P (Machine.exhausted : m α)
  fail {α : Type} {source : List Token} {P : α → Prop} {f : Fault} :
    f.QuotesOnly L.Quotable → Holds source P (Machine.fail f : m α)
  inForm {α : Type} {source form : List Token} {P : α → Prop} {x : m α} :
    IsForm form → L.Part source form → Holds source P x → Holds source P (Machine.inForm form x)
  inCall {α : Type} {source : List Token} {P : α → Prop} {f : UserFunction (List Token)} {x : m α} :
    Stored f → Holds f.body P x → Holds source P (Machine.inCall f x)
  lookup {source : List Token} {name : String} :
    L.Name name → Holds source (fun v => ∀ w ∈ v, L.Good w) (Machine.lookup name)
  assign {source : List Token} {name : String} {v : Value} : L.Name name → L.Good v →
    Holds source (fun _ => True) (Machine.assign name v.normalized)
  function? {source : List Token} {name : String} :
    L.Name name → Holds source (fun f => ∀ g ∈ f, Stored g) (Machine.function? name)
  define {source : List Token} {f : UserFunction (List Token)} : Stored f →
    Holds source (fun _ => True) (Machine.define f)
  print {source : List Token} {v : Value} : L.Good v →
    Holds source (fun _ => True) (Machine.print v.display)
  startRound {source : List Token} (n : Nat) :
    Holds source (fun _ => True) (Machine.startRound n)

namespace Contract
variable {L : Lexicon} {m : Type → Type} [Machine (List Token) m] (c : Contract L m)
  {self : List Token → m Value} {source : List Token} {xs : List (List Token)}

theorem holds_ofExcept {α : Type} {x : Except Fault α}
    (h : ∀ f, x = .error f → f.QuotesOnly L.Quotable) :
    c.Holds source (fun a => x = .ok a) (ofExcept x) := by
  cases x with
  | ok a => exact c.pure rfl
  | error f => exact c.fail (h f rfl)

theorem holds_integerLiteral {text : String} (h : L.Quotable text) :
    c.Holds source L.Good (integerLiteral text) := by
  simp only [integerLiteral]
  cases Integer.read? text with
  | some n => exact c.pure (L.integer n)
  | none => exact c.fail h

theorem holds_evalSymbol {name : String} (hn : L.Name name) :
    c.Holds source L.Good (evalSymbol name) := by
  refine c.bind (c.lookup hn) fun v hv => c.pure ?_
  cases v with
  | none => exact L.text hn
  | some w => exact hv w rfl

theorem holds_bindParameters {names : List String} {args : List Value}
    (hn : ∀ n ∈ names, L.Name n) (ha : ∀ a ∈ args, L.Good a) :
    c.Holds source (fun _ => True) (bindParameters names args) := by
  induction names generalizing args with
  | nil => exact c.pure trivial
  | cons name names ih =>
    cases args with
    | nil => exact c.pure trivial
    | cons v vs =>
      refine c.bind (c.assign (hn name (by simp)) (ha v (by simp))) fun _ _ => ?_
      exact ih (fun n h => hn n (by simp [h])) (fun a h => ha a (by simp [h]))

theorem holds_loop {condition body : m Value} (hc : c.Holds source L.Good condition)
    (hb : c.Holds source L.Good body) (steps rounds : Nat) {last : Value} (hl : L.Good last) :
    c.Holds source L.Good (loop condition body steps rounds last) := by
  induction steps generalizing rounds last with
  | zero => exact c.exhausted
  | succ steps ih =>
    refine c.bind hc fun v _ => ?_
    split
    · exact c.bind (c.startRound rounds) fun _ _ => c.bind hb fun w hw => ih (rounds + 1) hw
    · exact c.pure hl

/-- The contract holds of all forms, whatever source they stand in. -/
def Forms (self : List Token → m Value) : Prop :=
  ∀ source form, IsForm form → L.Part source form → c.Holds source L.Good (self form)

variable {c}

theorem Forms.holds_evalOperand (hs : c.Forms self) {x : List Token} (hx : IsOperand x)
    (hp : L.Part source x) : c.Holds source L.Good (evalOperand self x) := by
  match x with
  | [] => exact c.fail (by simp [Fault.QuotesOnly, Malformation.QuotesOnly])
  | [t] =>
    have hword : L.Word t := hp.word t (by simp)
    simp only [evalOperand, evalAtom]
    cases hk : t.kind with
    | number => exact c.holds_integerLiteral (L.quotable hword)
    | symbol => exact c.holds_evalSymbol (L.name hword hk)
    | opening | closing => exact c.fail (L.quotable hword)
  | t :: u :: ts =>
    simp only [evalOperand]
    split
    · exact hs source _ hx.isForm hp
    · exact c.fail hp.quotable

theorem Forms.holds_head (hs : c.Forms self) {x : List Token}
    (h : L.Operands source (x :: xs)) : c.Holds source L.Good (evalOperand self x) :=
  hs.holds_evalOperand h.head.1 h.head.2

theorem Forms.holds_evalOperands (hs : c.Forms self) (h : L.Operands source xs) :
    c.Holds source (fun vs => ∀ v ∈ vs, L.Good v) (evalOperands self xs) := by
  induction xs with
  | nil => exact c.pure (by simp)
  | cons x xs ih =>
    refine c.bind (hs.holds_head h) fun v hv => ?_
    exact c.bind (ih h.tail) fun vs hvs => c.pure (List.forall_mem_cons.mpr ⟨hv, hvs⟩)

theorem Forms.holds_evalSequence (hs : c.Forms self) (h : L.Operands source xs) {last : Value}
    (hl : L.Good last) : c.Holds source L.Good (evalSequence self last xs) := by
  induction xs generalizing last with
  | nil => exact c.pure hl
  | cons x xs ih => exact c.bind (hs.holds_head h) fun v hv => ih h.tail hv

theorem holds_wrongArity {α : Type} {P : α → Prop} (form : SpecialForm)
    (xs : List (List Token)) : c.Holds source P (wrongArity form xs : m α) :=
  c.fail (L.builtin (.special form))

theorem holds_nameOf (form : SpecialForm) {target : List Token} (h : L.Part source target) :
    c.Holds source (fun name => L.Name name ∧ ∃ t, target = [t] ∧ t.kind = .symbol ∧ t.text = name)
      (nameOf form target) := by
  match target with
  | [t] =>
    simp only [nameOf]
    split
    · exact c.pure ⟨L.name (h.word t (by simp)) ‹_›, t, rfl, ‹_›, rfl⟩
    · exact c.fail ⟨L.builtin (.special form), h.quotable⟩
  | [] | _ :: _ :: _ => exact c.fail ⟨L.builtin (.special form), h.quotable⟩

theorem Forms.holds_evalSetq (hs : c.Forms self) (h : L.Operands source xs) :
    c.Holds source L.Good (evalSetq self xs) := by
  match xs with
  | [target, x] =>
    refine c.bind (holds_nameOf .setq h.head.2) fun name hname => ?_
    refine c.bind (hs.holds_head h.tail) fun v hv => ?_
    exact c.bind (c.assign hname.1 hv) fun _ _ => c.pure (L.normalized hv)
  | [] | [_] | _ :: _ :: _ :: _ => exact holds_wrongArity .setq _

theorem Forms.holds_evalPrint (hs : c.Forms self) (h : L.Operands source xs) :
    c.Holds source L.Good (evalPrint self xs) := by
  match xs with
  | [x] =>
    refine c.bind (hs.holds_head h) fun v hv => ?_
    exact c.bind (c.print hv) fun _ _ => c.pure hv
  | [] | _ :: _ :: _ => exact holds_wrongArity .print _

theorem quotesOnly_of_parameterNames {Q : String → Prop} {function : String} (hf : Q function)
    {tokens : List Token} (ht : ∀ t ∈ tokens, Q t.text) {earlier : List String}
    {cause : Malformation} (h : parameterNames function earlier tokens = .error cause) :
    cause.QuotesOnly Q := by
  induction tokens generalizing earlier with
  | nil => cases h
  | cons t tokens ih =>
    obtain ⟨hfirst, hrest⟩ := List.forall_mem_cons.mp ht
    simp only [parameterNames] at h
    split at h
    · obtain rfl := Except.error.inj h
      exact ⟨hf, hfirst⟩
    · split at h
      · obtain rfl := Except.error.inj h
        exact ⟨hfirst, hf⟩
      · cases hn : parameterNames function (t.text :: earlier) tokens with
        | ok names => simp [hn, Except.map] at h
        | error g =>
          obtain rfl : g = cause := by simpa [hn, Except.map] using h
          exact ih hrest hn

theorem quotesOnly_of_parametersOf {function : String} (hf : L.Quotable function)
    {operand : List Token} (h : L.Part source operand) {cause : Malformation}
    (hp : parametersOf function operand = .error cause) : cause.QuotesOnly L.Quotable := by
  simp only [parametersOf] at hp
  split at hp
  · rename_i inner he
    obtain ⟨first, last, rfl, -, -⟩ := enclosed?_eq_some_iff.mp he
    refine quotesOnly_of_parameterNames hf (fun t ht => ?_) hp
    exact h.quotable t (by simp [ht])
  · obtain rfl := Except.error.inj hp
    exact ⟨hf, h.quotable⟩

theorem holds_evalDefun (h : L.Operands source xs) :
    c.Holds source L.Good (evalDefun xs : m Value) := by
  match xs with
  | target :: parameterList :: body =>
    refine c.bind (holds_nameOf .defun h.head.2) ?_
    rintro name ⟨hn, t, rfl, hk, ht⟩
    have hquotable : L.Quotable name := L.quotable_of_name hn
    cases hb : Builtin.ofSymbol? name with
    | some b =>
      simp only [Option.isSome_some, if_true]
      exact c.fail hquotable
    | none =>
      simp only [Option.isSome_none, Bool.false_eq_true, if_false]
      cases hp : parametersOf name parameterList with
      | error cause => exact c.fail (quotesOnly_of_parametersOf hquotable h.tail.head.2 hp)
      | ok parameters =>
        simp only
        split
        · exact c.fail hquotable
        · rename_i hne
          have hdefines : Defines ([t] :: parameterList :: body) ⟨name, parameters, body.flatten⟩ :=
            ⟨t, parameterList, body, rfl, hk, ht, hb, hp, by simpa using hne, rfl⟩
          exact c.bind (c.define (c.defined h hdefines)) fun _ _ => c.pure (L.text hn)
  | [] | [_] => exact holds_wrongArity .defun _

theorem Forms.holds_evalIf (hs : c.Forms self) (h : L.Operands source xs) :
    c.Holds source L.Good (evalIf self xs) := by
  match xs with
  | [condition, yes] =>
    refine c.bind (hs.holds_head h) fun v _ => ?_
    split
    · exact hs.holds_head h.tail
    · exact c.pure L.empty
  | [condition, yes, no] =>
    refine c.bind (hs.holds_head h) fun v _ => ?_
    split
    · exact hs.holds_head h.tail
    · exact hs.holds_head h.tail.tail
  | [] | [_] | _ :: _ :: _ :: _ :: _ => exact holds_wrongArity .cond _

theorem Forms.holds_evalWhile (hs : c.Forms self) (steps : Nat) (h : L.Operands source xs) :
    c.Holds source L.Good (evalWhile self steps xs) := by
  match xs with
  | condition :: body =>
    have hbody := hs.holds_evalSequence h.tail L.empty
    exact c.holds_loop (hs.holds_head h) hbody steps 0 (L.integer 0)
  | [] => exact holds_wrongArity .loopWhile _

theorem Forms.holds_evalFor (hs : c.Forms self) (steps : Nat) (h : L.Operands source xs) :
    c.Holds source L.Good (evalFor self steps xs) := by
  match xs with
  | [start, condition, body, update] =>
    have hcondition := hs.holds_head h.tail
    have hbody := hs.holds_head h.tail.tail
    have hupdate := hs.holds_head h.tail.tail.tail
    refine c.bind (hs.holds_head h) fun _ _ => ?_
    refine c.holds_loop hcondition ?_ steps 0 (L.integer 0)
    exact c.bind hbody fun v hv => c.bind hupdate fun _ _ => c.pure hv
  | [] | [_] | [_, _] | [_, _, _] | _ :: _ :: _ :: _ :: _ :: _ =>
    exact holds_wrongArity .loopFor _

theorem Forms.holds_evalSpecial (hs : c.Forms self) (steps : Nat) (form : SpecialForm)
    (h : L.Operands source xs) : c.Holds source L.Good (evalSpecial self steps form xs) := by
  cases form with
  | setq => exact hs.holds_evalSetq h
  | print => exact hs.holds_evalPrint h
  | defun => exact holds_evalDefun h
  | cond => exact hs.holds_evalIf h
  | loopWhile => exact hs.holds_evalWhile steps h
  | loopFor => exact hs.holds_evalFor steps h

end Contract
end FlatLisp
