import FlatLisp.Arity
import FlatLisp.Token

/-! Why an evaluation fails, and how that is said. -/
namespace FlatLisp

/-- Parens that do not pair up. The offset counts the bytes of the text, an index the tokens. -/
inductive Imbalance
  | strayClose (offset : Nat)
  | unclosed (count : Nat)
  | unmatchedOpen (index : Nat)
  | unexpectedClose (index : Nat)
  /-- An imbalance that a host reports in its own words. -/
  | described (detail : String)
  deriving DecidableEq, Repr

/-- Tokens whose parens may pair up, but which are no expression. -/
inductive Malformation
  | emptyInput
  | startsWithAtom (text : String)
  | tokensAfter (rest : List Token)
  | bareTopLevel (text : String)
  | noOpenParen (index : Nat)
  | notParenthesized (form : List Token)
  | emptyExpression
  | headClose
  | numberApplied (literal : String)
  | literalRange (literal : String)
  | variableApplied (name : String)
  | parenOperand (text : String)
  | notAnOperand (operand : List Token)
  | nameExpected (form : String) (found : List Token)
  | redefinesBuiltin (name : String)
  | noParameterList (function : String) (found : List Token)
  | parameterNotName (function text : String)
  | duplicateParameter (name function : String)
  | noBody (function : String)
  /-- A malformation that a host reports in its own words. -/
  | described (detail : String)
  deriving DecidableEq, Repr

inductive Fault
  | unbalanced (cause : Imbalance)
  | malformed (cause : Malformation)
  | unknownCommand (name : String)
  | arityMismatch (name : String) (expected : Arity) (got : Nat)
  | divisionByZero
  | moduloByZero
  | nonNumericComparison (op operand : String)
  | invalidOperand (op operand : String)
  | arithmeticOverflow (op : String)
  | recursionLimit (limit : Nat)
  | iterationLimit (limit : Nat)
  deriving DecidableEq, Repr

namespace Imbalance

def detail : Imbalance → String
  | strayClose offset => s!"closing ')' without matching '(' at offset {offset}"
  | unclosed count => s!"{count} unclosed '(' at end of input"
  | unmatchedOpen index => s!"no matching ')' for '(' at token {index}"
  | unexpectedClose index => s!"unexpected ')' at token {index}"
  | described detail => detail

end Imbalance

namespace Malformation
open Token (render)

def detail : Malformation → String
  | emptyInput => "empty input"
  | startsWithAtom text => s!"expression must start with '(', found '{text}'"
  | tokensAfter rest => s!"unexpected tokens after expression: '{render rest}'"
  | bareTopLevel text => s!"top-level expressions must be parenthesized, found '{text}'"
  | noOpenParen index => s!"expected '(' at token {index}"
  | notParenthesized form => s!"not a parenthesized form: '{render form}'"
  | emptyExpression => "empty expression"
  | headClose => "unexpected ')'"
  | numberApplied literal => s!"number '{literal}' cannot be applied to arguments"
  | literalRange literal => s!"integer literal '{literal}' out of range"
  | variableApplied name => s!"variable '{name}' cannot be applied to arguments"
  | parenOperand text => s!"unexpected '{text}'"
  | notAnOperand operand => s!"invalid operand '{render operand}'"
  | nameExpected form found => s!"'{form}' expects a name, found '{render found}'"
  | redefinesBuiltin name => s!"cannot redefine built-in '{name}'"
  | noParameterList function found =>
    s!"function '{function}' needs a parameter list, found '{render found}'"
  | parameterNotName function text =>
    s!"parameters of '{function}' must be names, found '{text}'"
  | duplicateParameter name function => s!"duplicate parameter name '{name}' in '{function}'"
  | noBody function => s!"function '{function}' has no body"
  | described detail => detail

end Malformation

namespace Fault

/-- The faults without their circumstances. -/
inductive Kind
  | unbalancedParentheses
  | malformedExpression
  | unknownCommand
  | arityMismatch
  | divisionByZero
  | moduloByZero
  | nonNumericComparison
  | invalidOperand
  | arithmeticOverflow
  | recursionLimitExceeded
  | iterationLimitExceeded
  deriving DecidableEq, Repr

def Kind.name : Kind → String
  | unbalancedParentheses => "UnbalancedParentheses"
  | malformedExpression => "MalformedExpression"
  | unknownCommand => "UnknownCommand"
  | arityMismatch => "ArityMismatch"
  | divisionByZero => "DivisionByZero"
  | moduloByZero => "ModuloByZero"
  | nonNumericComparison => "NonNumericComparison"
  | invalidOperand => "InvalidOperand"
  | arithmeticOverflow => "ArithmeticOverflow"
  | recursionLimitExceeded => "RecursionLimitExceeded"
  | iterationLimitExceeded => "IterationLimitExceeded"

def kind : Fault → Kind
  | unbalanced _ => .unbalancedParentheses
  | malformed _ => .malformedExpression
  | unknownCommand _ => .unknownCommand
  | arityMismatch .. => .arityMismatch
  | divisionByZero => .divisionByZero
  | moduloByZero => .moduloByZero
  | nonNumericComparison .. => .nonNumericComparison
  | invalidOperand .. => .invalidOperand
  | arithmeticOverflow _ => .arithmeticOverflow
  | recursionLimit _ => .recursionLimitExceeded
  | iterationLimit _ => .iterationLimitExceeded

def detail : Fault → String
  | unbalanced cause => cause.detail
  | malformed cause => cause.detail
  | unknownCommand name => s!"'{name}' is not an operator, function or variable"
  | arityMismatch name expected got =>
    s!"'{name}' expects {expected.describe} argument(s), got {got}"
  | divisionByZero => "division by zero"
  | moduloByZero => "modulo by zero"
  | nonNumericComparison op operand => s!"'{op}' cannot compare non-numeric value '{operand}'"
  | invalidOperand op operand => s!"'{op}' expects numbers, got '{operand}'"
  | arithmeticOverflow op => s!"result of '{op}' is out of range"
  | recursionLimit limit => s!"call depth exceeded {limit}"
  | iterationLimit limit => s!"loop ran more than {limit} iterations"

def message (f : Fault) : String := s!"{f.kind.name}: {f.detail}"

end Fault

/-- Fails when an operation is given a number of operands that it does not accept. -/
def Arity.validate (arity : Arity) (name : String) (count : Nat) : Except Fault Unit :=
  if arity.accepts count then .ok () else .error (.arityMismatch name arity count)

end FlatLisp
