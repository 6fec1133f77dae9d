import FlatLisp.Operator

/-! The names that the language reserves. -/
namespace FlatLisp

/-- The built-in forms that decide for themselves which of their operands are evaluated. -/
inductive SpecialForm
  | setq
  | print
  | defun
  | cond
  | loopWhile
  | loopFor
  deriving DecidableEq, Repr

namespace SpecialForm

def symbol : SpecialForm → String
  | setq => "setq"
  | print => "print"
  | defun => "defun"
  | cond => "if"
  | loopWhile => "while"
  | loopFor => "for"

def arity : SpecialForm → Arity
  | setq => .exact 2
  | print => .exact 1
  | defun => .atLeast 3
  | cond => .range 2 3
  | loopWhile => .atLeast 2
  | loopFor => .exact 4

end SpecialForm

inductive Builtin
  | operator (op : Operator)
  | special (form : SpecialForm)
  deriving DecidableEq, Repr

namespace Builtin

def symbol : Builtin → String
  | operator op => op.symbol
  | special form => form.symbol

def arity : Builtin → Arity
  | operator op => op.arity
  | special form => form.arity

def isSpecial : Builtin → Bool
  | operator _ => false
  | special _ => true

/-- All of them, in the order in which they are listed to a user. -/
def all : List Builtin :=
  [.operator .add, .operator .sub, .operator .mul, .operator .div, .operator .pow, .operator .mod,
    .operator .gt, .operator .lt, .operator .eq, .operator .ge, .operator .le,
    .special .setq, .special .print, .special .defun, .special .cond, .special .loopWhile,
    .special .loopFor]

def ofSymbol? (name : String) : Option Builtin := all.find? (·.symbol = name)

theorem mem_all (b : Builtin) : b ∈ all := by
  cases b with
  | operator op => cases op <;> decide
  | special form => cases form <;> decide

theorem ofSymbol?_symbol (b : Builtin) : ofSymbol? b.symbol = some b := by
  cases b with
  | operator op => cases op <;> decide
  | special form => cases form <;> decide

theorem symbol_of_ofSymbol? {name : String} {b : Builtin} (h : ofSymbol? name = some b) :
    b.symbol = name := by
  simpa using List.find?_some h

end Builtin
end FlatLisp
