import FlatLisp.Error
import FlatLisp.Proofs.Contract
import FlatLisp.Proofs.Rendering

/-! Messages. What a message quotes is a text without blanks, or tokens that are written with spaces
between them. So it has no blank but the space, and above all no line break. -/
namespace FlatLisp
open Lexer

/-- The text has no blank. -/
def Unbroken (text : String) : Prop := ∀ c ∈ text.toList, ¬ isBlank c

/-- The only blank that the text may have is the space. -/
def OneLine (text : String) : Prop := ∀ c ∈ text.toList, isBlank c → c = ' '

instance (text : String) : Decidable (Unbroken text) :=
  decidable_of_iff (text.toList.all fun c => !isBlank c) (by simp [Unbroken])

variable {text : String} {tokens : List Token} {e : Error} {f : Fault}

theorem Unbroken.oneLine (h : Unbroken text) : OneLine text := fun c hc hb => absurd hb (h c hc)

theorem oneLine_append {later : String} :
    OneLine (text ++ later) ↔ OneLine text ∧ OneLine later := by
  simp only [OneLine, String.toList_append, List.forall_mem_append]

/-- In an interpolated text, a text stands for itself. -/
theorem oneLine_toString_iff : OneLine (toString text) ↔ OneLine text := Iff.rfl

/-- A literal is checked as the characters that it is made of, and only those: to decide a statement
about all characters, an instance that tries each character there is could be found. -/
theorem oneLine_ofList {cs : List Char} (h : cs.all fun c => !isBlank c || c == ' ') :
    OneLine (String.ofList cs) := by
  simpa [OneLine, imp_iff_not_or] using h

theorem oneLine_take (h : OneLine text) (n : Nat) :
    OneLine (String.ofList (text.toList.take n)) := by
  intro c hc
  rw [String.toList_ofList] at hc
  exact h c (List.mem_of_mem_take hc)

theorem oneLine_toString (n : Nat) : OneLine (toString n) := by
  rw [Nat.toString_eq_ofList_toDigits]
  intro c hc
  rw [String.toList_ofList] at hc
  have hdigit := Nat.isDigit_of_mem_toDigits (by decide) (by decide) hc
  exact fun hb => absurd hb (isWordChar_of_isDigit hdigit).1

theorem oneLine_render (h : ∀ t ∈ tokens, Unbroken t.text) : OneLine (Token.render tokens) := by
  intro c hc hb
  obtain hspace | ⟨t, ht, hmem⟩ := Token.mem_render hc
  · exact hspace
  · exact absurd hb (h t ht c hmem)

theorem Imbalance.oneLine_detail {cause : Imbalance} (h : cause.QuotesOnly Unbroken) :
    OneLine cause.detail := by
  cases cause with
  | described detail => exact h.oneLine
  | strayClose n | unclosed n | unmatchedOpen n | unexpectedClose n =>
    unfold detail
    simp only [oneLine_append, oneLine_toString n, and_true, true_and]
    exact oneLine_ofList (by decide)

theorem Malformation.oneLine_detail {cause : Malformation} (h : cause.QuotesOnly Unbroken) :
    OneLine cause.detail := by
  cases cause with
  | emptyInput | emptyExpression | headClose => exact oneLine_ofList (by decide)
  | noOpenParen index =>
    unfold detail
    simp only [oneLine_append, oneLine_toString index, and_true]
    exact oneLine_ofList (by decide)
  | startsWithAtom text | bareTopLevel text | parenOperand text | numberApplied text
  | literalRange text | variableApplied text | redefinesBuiltin text | noBody text =>
    have hquoted : OneLine text := h.oneLine
    unfold detail
    simp only [oneLine_append, oneLine_toString_iff, hquoted, and_true]
    exact ⟨oneLine_ofList (by decide), oneLine_ofList (by decide)⟩
  | tokensAfter tokens | notParenthesized tokens | notAnOperand tokens =>
    have hquoted : OneLine (Token.render tokens) := oneLine_render h
    unfold detail
    simp only [oneLine_append, oneLine_toString_iff, hquoted, and_true]
    exact ⟨oneLine_ofList (by decide), oneLine_ofList (by decide)⟩
  | nameExpected name found | noParameterList name found =>
    have hname : OneLine name := h.1.oneLine
    have hfound : OneLine (Token.render found) := oneLine_render h.2
    unfold detail
    simp only [oneLine_append, oneLine_toString_iff, hname, hfound, and_true]
    exact ⟨⟨oneLine_ofList (by decide), oneLine_ofList (by decide)⟩, oneLine_ofList (by decide)⟩
  | parameterNotName first second | duplicateParameter first second =>
    have hfirst : OneLine first := h.1.oneLine
    have hsecond : OneLine second := h.2.oneLine
    unfold detail
    simp only [oneLine_append, oneLine_toString_iff, hfirst, hsecond, and_true]
    exact ⟨⟨oneLine_ofList (by decide), oneLine_ofList (by decide)⟩, oneLine_ofList (by decide)⟩
  | described detail => exact h.oneLine

theorem Arity.oneLine_describe (arity : Arity) : OneLine arity.describe := by
  cases arity with
  | exact n | atLeast n =>
    unfold describe
    simp only [oneLine_append, oneLine_toString n, and_true]
    exact oneLine_ofList (by decide)
  | range min max =>
    unfold describe
    simp only [oneLine_append, oneLine_toString min, oneLine_toString max, and_true, true_and]
    exact oneLine_ofList (by decide)
  | any => exact oneLine_ofList (by decide)

theorem Fault.oneLine_detail (h : f.QuotesOnly Unbroken) : OneLine f.detail := by
  cases f with
  | unbalanced cause => exact cause.oneLine_detail h
  | malformed cause => exact cause.oneLine_detail h
  | unknownCommand name | arithmeticOverflow name =>
    have hname : OneLine name := h.oneLine
    unfold detail
    simp only [oneLine_append, oneLine_toString_iff, hname, and_true]
    exact ⟨oneLine_ofList (by decide), oneLine_ofList (by decide)⟩
  | arityMismatch name expected got =>
    have hname : OneLine name := h.oneLine
    unfold detail
    simp only [oneLine_append, oneLine_toString_iff, hname, expected.oneLine_describe,
      oneLine_toString got, and_true]
    exact ⟨⟨oneLine_ofList (by decide), oneLine_ofList (by decide)⟩, oneLine_ofList (by decide)⟩
  | divisionByZero | moduloByZero => exact oneLine_ofList (by decide)
  | nonNumericComparison op operand | invalidOperand op operand =>
    have hop : OneLine op := h.1.oneLine
    have hoperand : OneLine operand := h.2.oneLine
    unfold detail
    simp only [oneLine_append, oneLine_toString_iff, hop, hoperand, and_true]
    exact ⟨⟨oneLine_ofList (by decide), oneLine_ofList (by decide)⟩, oneLine_ofList (by decide)⟩
  | recursionLimit limit =>
    unfold detail
    simp only [oneLine_append, oneLine_toString limit, and_true]
    exact oneLine_ofList (by decide)
  | iterationLimit limit =>
    unfold detail
    simp only [oneLine_append, oneLine_toString limit, and_true]
    exact ⟨oneLine_ofList (by decide), oneLine_ofList (by decide)⟩

theorem Fault.Kind.oneLine_name (kind : Kind) : OneLine kind.name := by
  cases kind <;> exact oneLine_ofList (by decide)

theorem Fault.oneLine_message (h : f.QuotesOnly Unbroken) : OneLine f.message := by
  simp only [message, oneLine_append, oneLine_toString_iff, f.kind.oneLine_name, oneLine_detail h,
    true_and, and_true]
  exact oneLine_ofList (by decide)

namespace Error

/-- What an error is about, and what was evaluated, can be said in a line. -/
structure Tidy (e : Error) : Prop where
  fault : e.fault.QuotesOnly Unbroken
  context : ∀ expression ∈ e.context, OneLine expression

theorem oneLine_excerpt (h : OneLine text) : OneLine (excerpt text) := by
  simp only [excerpt]
  split
  · exact h
  · rw [String.ofList_append, oneLine_append]
    exact ⟨oneLine_take h _, oneLine_ofList (by decide)⟩

theorem Tidy.locate (h : e.Tidy) {form : List Token} (hw : ∀ t ∈ form, Unbroken t.text) :
    (e.locate form).Tidy := by
  have hsaid := oneLine_excerpt (oneLine_render hw)
  simp only [Error.locate]
  split
  · exact ⟨h.fault, by simpa [within, or_imp, forall_and] using ⟨h.context, hsaid⟩⟩
  · exact h

/-- With the context, more is said of the error behind what is said without it. -/
theorem exists_message_eq (e : Error) (h : ∀ expression ∈ e.context, OneLine expression) :
    ∃ more, e.message = e.fault.message ++ more ∧ OneLine more := by
  obtain ⟨f, context⟩ := e
  simp only [message]
  generalize f.message = said at h ⊢
  induction context generalizing said with
  | nil => exact ⟨"", by simp, oneLine_ofList (by decide)⟩
  | cons expression context ih =>
    obtain ⟨hfirst, hrest⟩ := List.forall_mem_cons.mp h
    obtain ⟨more, hmore, hline⟩ := ih hrest _
    rw [List.foldl_cons, hmore]
    refine ⟨" (while evaluating: " ++ expression ++ ")" ++ more, ?_, ?_⟩
    · simp only [String.append_assoc]
      rfl
    · simp only [oneLine_append, hfirst, hline, and_true]
      exact ⟨oneLine_ofList (by decide), oneLine_ofList (by decide)⟩

/-- The message begins with the kind of the error and is one line. -/
theorem Tidy.message (h : e.Tidy) :
    e.kind.name.toList <+: e.message.toList ∧ OneLine e.message := by
  obtain ⟨more, hmore, hline⟩ := e.exists_message_eq h.context
  have hfault : e.fault.message = e.kind.name ++ ": " ++ e.fault.detail := rfl
  rw [hmore]
  refine ⟨?_, ?_⟩
  · refine ⟨(": " ++ e.fault.detail ++ more).toList, ?_⟩
    simp [hfault]
  · exact oneLine_append.mpr ⟨Fault.oneLine_message h.fault, hline⟩

end Error
end FlatLisp
