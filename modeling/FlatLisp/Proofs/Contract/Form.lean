import FlatLisp.Proofs.Contract

/-! Contracts of forms and programs. -/
namespace FlatLisp
open Machine Eval Nesting

theorem Operator.Finds.quotesOnly {L : Lexicon} {op : Operator} {args : List Value} {f : Fault}
    (h : op.Finds args f) (ha : ∀ a ∈ args, L.Good a) : f.QuotesOnly L.Quotable := by
  have hsymbol : L.Quotable op.symbol := L.builtin (.operator op)
  cases h with
  | arity expected got => exact hsymbol
  | divisionByZero | moduloByZero => exact trivial
  | notNumeric hm | notNumber hm => exact ⟨hsymbol, L.display (ha _ hm)⟩
  | overflow => exact hsymbol

namespace Contract

variable {L : Lexicon} {m : Type → Type} [Machine (List Token) m] {c : Contract L m}
  {self : List Token → m Value} {source form : List Token} {xs : List (List Token)}

theorem quotesOnly_of_splitOperands {Q : String → Prop} {f : Fault}
    (h : splitOperands form = .error f) : f.QuotesOnly Q := by
  simp only [splitOperands] at h
  split at h
  · cases h
  · rename_i cause _
    obtain rfl := Except.error.inj h
    cases cause <;> exact trivial

theorem quotesOnly_of_matchParen {Q : String → Prop} {f : Fault} {index : Nat}
    (h : matchParen form index = .error f) : f.QuotesOnly Q := by
  simp only [matchParen] at h
  repeat' split at h
  all_goals
    cases h
    try exact trivial

theorem Forms.holds_evalOperator (hs : c.Forms self) (op : Operator)
    (h : L.Operands source xs) : c.Holds source L.Good (evalOperator self op xs) := by
  refine c.bind (hs.holds_evalOperands h) fun args ha => ?_
  cases hv : op.apply args with
  | ok v => exact c.pure (L.result ha hv)
  | error f => exact c.fail ((Operator.finds_of_apply hv).quotesOnly ha)

/-- The body of a function is a source of its own. -/
theorem Forms.holds_invoke (hs : c.Forms self) {f : UserFunction (List Token)} {args : List Value}
    (hf : c.Stored f) (ha : ∀ a ∈ args, L.Good a) :
    c.Holds source L.Good (invoke self f args) := by
  simp only [invoke]
  split
  · refine c.bind (c.holds_ofExcept fun _ => quotesOnly_of_splitOperands) fun body hb => ?_
    refine c.inCall hf ?_
    have hbody : L.Operands f.body body :=
      (Lexicon.Part.self (c.stored_body hf)).operands_of_split hb
    refine c.bind (c.holds_bindParameters (c.stored_parameter hf) ha) fun _ _ => ?_
    exact hs.holds_evalSequence hbody L.empty
  · exact c.fail (c.stored_name hf)

theorem Forms.holds_evalBuiltin (hs : c.Forms self) (steps : Nat) (b : Builtin)
    (h : L.Operands source xs) : c.Holds source L.Good (evalBuiltin self steps b xs) := by
  have hcount : ∀ f, b.arity.validate b.symbol xs.length = .error f → f.QuotesOnly L.Quotable := by
    intro f hf
    simp only [Arity.validate] at hf
    split at hf
    · cases hf
    · obtain rfl := Except.error.inj hf
      exact L.builtin b
  refine c.bind (c.holds_ofExcept hcount) fun _ _ => ?_
  cases b with
  | operator op => exact hs.holds_evalOperator op h
  | special form => exact hs.holds_evalSpecial steps form h

theorem Forms.holds_applyName (hs : c.Forms self) (steps : Nat) {name : String}
    (hn : L.Name name) (h : L.Operands source xs) :
    c.Holds source L.Good (applyName self steps name xs) := by
  have hquotable : L.Quotable name := L.quotable_of_name hn
  simp only [applyName]
  cases Builtin.ofSymbol? name with
  | some b => exact hs.holds_evalBuiltin steps b h
  | none =>
    refine c.bind (c.function? hn) fun f hf => ?_
    cases f with
    | some f =>
      exact c.bind (hs.holds_evalOperands h) fun args ha => hs.holds_invoke (hf f rfl) ha
    | none =>
      refine c.bind (c.lookup hn) fun v hv => ?_
      cases v with
      | none => exact c.fail hquotable
      | some v =>
        simp only
        split
        · exact c.pure (hv v rfl)
        · exact c.fail hquotable

theorem Forms.holds_evalInner (hs : c.Forms self) (steps : Nat) {inner : List Token}
    (h : L.Part source inner) : c.Holds source L.Good (evalInner self steps inner) := by
  match inner with
  | [] => exact c.fail trivial
  | head :: rest =>
    have hhead : L.Word head := h.word head (by simp)
    have hrest : L.Part source rest := h.of_isInfix (List.suffix_cons head rest).isInfix
    simp only [evalInner]
    cases hk : head.kind with
    | opening =>
      refine c.bind (c.holds_ofExcept fun _ => quotesOnly_of_splitOperands) fun xs hx => ?_
      exact hs.holds_evalSequence (h.operands_of_split hx) L.empty
    | number =>
      refine c.bind (c.holds_ofExcept fun _ => quotesOnly_of_splitOperands) fun xs _ => ?_
      split
      · exact c.holds_integerLiteral (L.quotable hhead)
      · exact c.fail (L.quotable hhead)
    | symbol =>
      refine c.bind (c.holds_ofExcept fun _ => quotesOnly_of_splitOperands) fun xs hx => ?_
      exact hs.holds_applyName steps (L.name hhead hk) (hrest.operands_of_split hx)
    | closing => exact c.fail trivial

theorem Forms.holds_dispatch (hs : c.Forms self) (steps : Nat) (h : L.Part source form) :
    c.Holds source L.Good (dispatch self steps form) := by
  simp only [dispatch]
  cases he : enclosed? form with
  | none => exact c.fail h.quotable
  | some inner =>
    obtain ⟨first, last, rfl, -, -⟩ := enclosed?_eq_some_iff.mp he
    exact hs.holds_evalInner steps (h.of_isInfix ⟨[first], [last], by simp⟩)

variable (c) (steps : Nat)

/-- By induction on the steps, since a body is run with fewer of them but may be longer than the
form that calls it. -/
theorem forms_evalForm : c.Forms (evalForm steps) := by
  induction steps with
  | zero => exact fun _ _ _ _ => c.exhausted
  | succ steps ih => exact fun _ _ hform h => c.inForm hform h (ih.holds_dispatch steps h)

theorem holds_evaluate {tokens : List Token} (h : ∀ t ∈ tokens, L.Word t) :
    c.Holds tokens L.Good (evaluate steps tokens) := by
  match tokens with
  | [] => exact c.fail trivial
  | t :: ts =>
    have hpart : L.Part (t :: ts) (t :: ts) := .self h
    simp only [evaluate]
    split
    · refine c.bind (c.holds_ofExcept fun _ => quotesOnly_of_matchParen) fun close hclose => ?_
      split
      · exact c.forms_evalForm steps _ _ (isForm_of_matchParen hclose ‹_›) hpart
      · exact c.fail fun u hu => hpart.quotable u (List.mem_of_mem_drop hu)
    · exact c.fail (hpart.quotable t (by simp))

theorem holds_evalForms {forms : List (List Token)} (h : L.Operands source forms) {last : Value}
    (hl : L.Good last) : c.Holds source L.Good (evalForms steps last forms) := by
  induction forms generalizing last with
  | nil => exact c.pure hl
  | cons form forms ih =>
    obtain ⟨hshape, hpart⟩ := h.head
    match form with
    | [] => simp [IsOperand, IsForm] at hshape
    | [t] => exact c.fail (hpart.quotable t (by simp))
    | t :: u :: ts =>
      have hform := c.forms_evalForm steps source _ hshape.isForm hpart
      exact c.bind hform fun v hv => ih h.tail hv

theorem holds_evaluateProgram {tokens : List Token} (h : ∀ t ∈ tokens, L.Word t) :
    c.Holds tokens L.Good (evaluateProgram steps tokens) := by
  have hforms : L.Operands tokens (operands tokens).complete := by
    intro x hx
    refine ⟨isOperand_of_mem_operands hx, .of_isInfix (.self h) ?_⟩
    exact (isInfix_flatten_of_mem hx).trans (operands_isPrefix tokens).isInfix
  refine c.bind (c.holds_evalForms steps hforms L.empty) fun v hv => ?_
  cases hcause : (operands tokens).cutShort with
  | none => exact c.pure hv
  | some cause =>
    cases cause with
    | strayClose index paren => exact c.fail (L.quotable (h paren (mem_of_strayClose hcause)))
    | unmatchedOpen index => exact c.fail trivial

end Contract
end FlatLisp
