import FlatLisp.Proofs.Arithmetic.Retyping
import FlatLisp.Proofs.Numeral
import FlatLisp.Proofs.Session

/-! Integers in sources. What is written for an integer is the integer again wherever it is read, be
it as a token, as the text of a value or in a source. -/
namespace FlatLisp
open Machine Eval Nesting Evaluation Lexer

namespace Value

theorem ofText_display (v : Value) : ofText v.display = v.normalized := by
  cases v with
  | integer n => simp only [display, ofText, Integer.read?_render, normalized]
  | text s => rfl

theorem normalized_normalized (v : Value) : v.normalized.normalized = v.normalized := by
  rcases normalized_cases v with h | ⟨text, n, -, -, h⟩
  · exact congrArg normalized h
  · rw [h, normalized]

end Value

variable {o : Options} {s : State (List Token)} {literal name : String} {n : Int64}
  {comments : Bool}

/-- Sources with an integer for their only token evaluate to it when it is an operand. -/
theorem endsIn_render (n : Int64) (o : Options) (s : State (List Token)) :
    EndsIn (ofOperand [⟨.number, Integer.render n⟩]) o s (.ok (.integer n), s) :=
  endsIn_number rfl (Integer.read?_render n)

theorem tokenize_numeral (h : IsNumeral literal.toList) (comments : Bool) :
    tokenize comments literal = .ok [⟨.number, literal⟩] := by
  have hrender : Token.render [⟨.number, literal⟩] = literal := by
    apply String.toList_inj.mp
    rw [Token.toList_render]
    simp [Token.pieces, Token.gap]
  have hspelled : ∀ t ∈ [⟨.number, literal⟩], Readable comments t :=
    List.forall_mem_singleton.mpr (h.readable comments)
  have htokens := tokenize_render_of_readable (rfl : Balanced [⟨.number, literal⟩]) hspelled
  rwa [hrender] at htokens

/-- A numeral in parens. -/
def numeralForm (literal : String) : List Token := [.openParen, ⟨.number, literal⟩, .closeParen]

theorem isForm_numeralForm (literal : String) : IsForm (numeralForm literal) :=
  ⟨.openParen, [⟨.number, literal⟩], .closeParen, rfl, rfl, rfl, rfl⟩

theorem tokenize_numeralForm (h : IsNumeral literal.toList) (comments : Bool) :
    tokenize comments ("(" ++ literal ++ ")") = .ok (numeralForm literal) := by
  have hrender : Token.render (numeralForm literal) = "(" ++ literal ++ ")" := by
    apply String.toList_inj.mp
    rw [Token.toList_render]
    simp [numeralForm, Token.pieces, Token.gap, Token.openParen, Token.closeParen]
  rw [← hrender]
  refine tokenize_render_of_readable (isForm_numeralForm literal).balanced ?_
  simp only [numeralForm, List.forall_mem_cons]
  exact ⟨readable_openParen, h.readable comments, readable_closeParen, List.forall_mem_nil _⟩

/-- A numeral in parens has the integer for its value that the numeral is read as, if any. -/
theorem ofNested_numeralForm (literal : String) (steps : Nat) :
    ofNested (numeralForm literal) (steps + 1) =
      located (numeralForm literal) (integerLiteral literal) := rfl

theorem endsIn_numeralForm (h : Integer.read? literal = some n) :
    EndsIn (ofProgram (numeralForm literal)) o s (.ok (.integer n), s) := by
  refine (endsIn_ofNested_iff.mpr ⟨1, ?_⟩).ofProgram (isForm_numeralForm literal)
  rw [ofNested_numeralForm, integerLiteral, h]
  rfl

theorem endsIn_numeralForm_error (h : Integer.read? literal = none) :
    EndsIn (ofProgram (numeralForm literal)) o s
      (.error ((Error.bare (.malformed (.literalRange literal))).locate (numeralForm literal)),
        s) := by
  refine (endsIn_ofNested_iff.mpr ⟨1, ?_⟩).ofProgram (isForm_numeralForm literal)
  rw [ofNested_numeralForm, integerLiteral, h]
  rfl

theorem Builtin.readable (b : Builtin) (comments : Bool) :
    Readable comments ⟨.symbol, b.symbol⟩ := by
  have hword : (⟨.symbol, b.symbol⟩ : Token) = .atom b.symbol ∧ b.symbol ≠ "" ∧
      (b.symbol.toList.all fun c => IsWordChar c) ∧ ';' ∉ b.symbol.toList := by
    cases b with
    | operator op => cases op <;> decide
    | special form => cases form <;> decide
  obtain ⟨hatom, hne, hchars, hplain⟩ := hword
  exact ⟨hatom ▸ .atom hne (List.all_iff_forall_prop.mp hchars), fun _ => hplain⟩

/-- A form that is written with readable tokens is read from its text. -/
theorem tokenize_headedBy {xs : List (List Token)} {source : String}
    (hsource : Token.render (headedBy name xs) = source) (hx : ∀ x ∈ xs, IsOperand x)
    (hname : Readable comments ⟨.symbol, name⟩) (hr : ∀ x ∈ xs, ∀ t ∈ x, Readable comments t) :
    tokenize comments source = .ok (headedBy name xs) := by
  rw [← hsource]
  refine tokenize_render_of_readable (isForm_headedBy name hx).balanced ?_
  simp only [headedBy, List.forall_mem_cons, List.forall_mem_append, List.forall_mem_flatten]
  exact ⟨readable_openParen, hname, hr, readable_closeParen, List.forall_mem_nil _⟩

/-- The form `(setq name n)`. -/
def assignment (name : String) (n : Int64) : List Token :=
  headedBy SpecialForm.setq.symbol [[⟨.symbol, name⟩], [⟨.number, Integer.render n⟩]]

/-- The form `(print name)`. -/
def printing (name : String) : List Token :=
  headedBy SpecialForm.print.symbol [[⟨.symbol, name⟩]]

theorem isOperand_symbol (name : String) : IsOperand [⟨.symbol, name⟩] := .atom nofun nofun

theorem isOperand_numeral (literal : String) : IsOperand [⟨.number, literal⟩] := .atom nofun nofun

theorem isOperand_of_mem_assignment :
    ∀ x ∈ [[⟨.symbol, name⟩], [⟨.number, Integer.render n⟩]], IsOperand x := by
  simp [isOperand_symbol, isOperand_numeral]

theorem isOperand_of_mem_printing : ∀ x ∈ [[⟨.symbol, name⟩]], IsOperand x := by
  simp [isOperand_symbol]

theorem tokenize_assignment (h : Readable comments ⟨.symbol, name⟩) (n : Int64) :
    tokenize comments ("(setq " ++ name ++ " " ++ Integer.render n ++ ")") =
      .ok (assignment name n) := by
  refine tokenize_headedBy ?_ isOperand_of_mem_assignment ((Builtin.special .setq).readable _) ?_
  · apply String.toList_inj.mp
    rw [Token.toList_render]
    simp [headedBy, SpecialForm.symbol, Token.pieces, Token.gap, Token.openParen, Token.closeParen]
  · simpa using ⟨h, (Integer.isNumeral_render n).readable comments⟩

theorem tokenize_printing (h : Readable comments ⟨.symbol, name⟩) :
    tokenize comments ("(print " ++ name ++ ")") = .ok (printing name) := by
  refine tokenize_headedBy ?_ isOperand_of_mem_printing ((Builtin.special .print).readable _) ?_
  · apply String.toList_inj.mp
    rw [Token.toList_render]
    simp [headedBy, SpecialForm.symbol, Token.pieces, Token.gap, Token.openParen, Token.closeParen]
  · simpa using h

theorem endsIn_assignment (name : String) (n : Int64) (o : Options) (s : State (List Token)) :
    EndsIn (ofProgram (assignment name n)) o s
      (.ok (.integer n), { s with env := s.env.assign name (.integer n) }) := by
  have happlies : Applies (assignment name n) (.special .setq) _ :=
    applies_headedBy (.special .setq) isOperand_of_mem_assignment
  exact (happlies.endsIn_setq rfl (endsIn_render n o s)).program
    (isForm_headedBy _ isOperand_of_mem_assignment)

theorem endsIn_printing (h : s.env.lookup name = some (.integer n)) (o : Options) :
    EndsIn (ofProgram (printing name)) o s
      (.ok (.integer n), { s with output := s.output.push (Integer.render n) }) := by
  have happlies : Applies (printing name) (.special .print) _ :=
    applies_headedBy (.special .print) isOperand_of_mem_printing
  have hname : EndsIn (ofOperand [⟨.symbol, name⟩]) o s (.ok (.integer n), s) := endsIn_symbol rfl h
  exact (happlies.endsIn_print hname).program (isForm_headedBy _ isOperand_of_mem_printing)

namespace Session

/-- With enough steps, the execution of the source in the session is this one, and leaves the other
session. -/
def Executes (s : Session) (source : String) (x : Execution) (t : Session) : Prop :=
  ∃ n, ∀ steps, n ≤ steps → s.execute steps source = some (x, t)

/-- Integers are read as they are written. The text of an integer is one token, whose value is the
integer, and values are held by what their texts read as. A numeral in parens, however long it is
and with whatever zeros in front, evaluates to the integer that it stands for if that has 64 bits,
and is malformed otherwise. So an integer that a source stores under a name, which is a text that is
read as one symbol, is found under it. -/
theorem integers_are_read_as_written :
    (∀ n : Int64,
      (∀ comments, tokenize comments (Value.integer n).display =
        .ok [⟨.number, (Value.integer n).display⟩]) ∧
      (∀ o s, EndsIn (ofOperand [⟨.number, (Value.integer n).display⟩]) o s
        (.ok (.integer n), s)) ∧
      Value.ofText (Value.integer n).display = .integer n) ∧
    (∀ v : Value, Value.ofText v.display = v.normalized ∧
      v.normalized.normalized = v.normalized) ∧
    (∀ (s : Session) (literal : String), IsNumeral literal.toList →
      ∃ outcome, s.Executes ("(" ++ literal ++ ")") ⟨#[], outcome⟩ s ∧
        (Integer.Fits (Integer.ofNumeral literal.toList) →
          ∃ k : Int64, k.toInt = Integer.ofNumeral literal.toList ∧ outcome = .ok (.integer k)) ∧
        (¬ Integer.Fits (Integer.ofNumeral literal.toList) →
          ∃ e, outcome = .error e ∧ e.kind = .malformedExpression)) ∧
    ∀ (s : Session) (name : String) (n : Int64),
      tokenize s.config.comments name = .ok [⟨.symbol, name⟩] →
      ∃ t : Session,
        s.Executes ("(setq " ++ name ++ " " ++ Integer.render n ++ ")")
          ⟨#[], .ok (.integer n)⟩ t ∧
        t.env.getInteger? name = some n ∧
        EndsIn (ofOperand [⟨.symbol, name⟩]) t.config.options { env := t.env }
          (.ok (.integer n), { env := t.env }) ∧
        t.Executes ("(print " ++ name ++ ")") ⟨#[Integer.render n], .ok (.integer n)⟩ t := by
  refine ⟨fun n => ⟨?_, endsIn_render n, Value.ofText_display _⟩, ?_, ?_, ?_⟩
  · exact tokenize_numeral (Integer.isNumeral_render n)
  · exact fun v => ⟨v.ofText_display, v.normalized_normalized⟩
  · intro s literal h
    have htokens := tokenize_numeralForm h s.config.comments
    have hread := Integer.read?_of_isNumeral h
    by_cases hfits : Integer.Fits (Integer.ofNumeral literal.toList)
    · obtain ⟨k, hk, hvalue⟩ := Integer.exists_of_fits hfits
      exact ⟨_, exists_execute_of_endsIn htokens (endsIn_numeralForm (hread.trans hk)),
        fun _ => ⟨k, hvalue, rfl⟩, fun hnot => absurd hfits hnot⟩
    · have hnone := hread.trans (Integer.fit?_of_not_fits hfits)
      exact ⟨_, exists_execute_of_endsIn htokens (endsIn_numeralForm_error hnone),
        fun hfit => absurd hfit hfits, fun _ => ⟨_, rfl, rfl⟩⟩
  · intro s name n hname
    have hreadable := readable_of_tokenize hname (List.mem_singleton_self _)
    have hlookup : (s.env.assign name (.integer n)).lookup name = some (.integer n) := by
      rw [Environment.lookup_assign, if_pos rfl]
    let t : Session := { s with env := s.env.assign name (.integer n) }
    have hprinting := endsIn_printing (s := { env := t.env }) hlookup t.config.options
    refine ⟨t, ?_, ?_, ?_, ?_⟩
    · exact exists_execute_of_endsIn (tokenize_assignment hreadable n)
        (endsIn_assignment name n _ _)
    · simp only [t, Environment.getInteger?, hlookup, Option.bind_some, Value.toInteger?]
    · exact endsIn_symbol rfl hlookup
    · exact exists_execute_of_endsIn (s := t) (tokenize_printing hreadable) hprinting

/-- The least integer with zeros in front of its digits, the same digits without the sign, and the
least integer stored under the name of a builtin. -/
theorem integers_are_read_as_written_at_least :
    (start {}).Executes "(-0009223372036854775808)" ⟨#[], .ok (.integer Int64.minValue)⟩
      (start {}) ∧
    (∃ e, (start {}).Executes "(9223372036854775808)" ⟨#[], .error e⟩ (start {}) ∧
      e.kind = .malformedExpression) ∧
    tokenize true "print" = .ok [⟨.symbol, "print"⟩] ∧
    ∃ t, (start { comments := true }).Executes "(setq print -9223372036854775808)"
        ⟨#[], .ok (.integer Int64.minValue)⟩ t ∧
      t.env.getInteger? "print" = some Int64.minValue ∧
      t.Executes "(print print)" ⟨#["-9223372036854775808"], .ok (.integer Int64.minValue)⟩ t := by
  obtain ⟨-, -, hliterals, hnames⟩ := integers_are_read_as_written
  obtain ⟨least, hleast, hfits, -⟩ := hliterals (start {}) "-0009223372036854775808"
    (isNumber_iff.mp (by decide +kernel))
  obtain ⟨large, hlarge, -, hover⟩ := hliterals (start {}) "9223372036854775808"
    (isNumber_iff.mp (by decide +kernel))
  obtain ⟨k, hk, rfl⟩ := hfits (by decide +kernel)
  obtain ⟨e, rfl, hkind⟩ := hover (by decide +kernel)
  obtain rfl : k = Int64.minValue := Int64.toInt_inj.mp (hk.trans (by decide +kernel))
  have hname : tokenize true "print" = .ok [⟨.symbol, "print"⟩] := by decide +kernel
  obtain ⟨t, hsetq, hget, -, hprint⟩ := hnames (start { comments := true }) "print"
    Int64.minValue hname
  have hrender : Integer.render Int64.minValue = "-9223372036854775808" := by decide +kernel
  rw [hrender] at hsetq hprint
  exact ⟨hleast, ⟨e, hlarge, hkind⟩, hname, t, hsetq, hget, hprint⟩

end Session

end FlatLisp
