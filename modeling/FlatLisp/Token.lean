/-! Tokens: the atoms and parens that a text is made of, and the way they are written back. -/
namespace FlatLisp

inductive Token.Kind
  | number
  | symbol
  | opening
  | closing
  deriving DecidableEq, Repr

/-- A word of the language. The text of a paren may be any, since only its kind is looked at. -/
structure Token where
  kind : Token.Kind
  text : String
  deriving DecidableEq, Repr

namespace Token

/-- A minus sign or none, then one or more ASCII digits. -/
def isNumber (text : List Char) : Bool :=
  let digits := if text.head? = some '-' then text.tail else text
  !digits.isEmpty && digits.all Char.isDigit

def atom (text : String) : Token :=
  ⟨if isNumber text.toList then .number else .symbol, text⟩

def openParen : Token := ⟨.opening, "("⟩

def closeParen : Token := ⟨.closing, ")"⟩

def isOpen (t : Token) : Bool := t.kind = .opening

def isClose (t : Token) : Bool := t.kind = .closing

/-- What stands between a token of kind `before` and the token `t`. -/
def gap (before : Kind) (t : Token) : String :=
  if before = .opening || t.kind = .closing then "" else " "

def pieces (before : Kind) : List Token → List String
  | [] => []
  | t :: ts => gap before t :: t.text :: pieces t.kind ts

/-- The tokens as text: one space between two of them, none after an open paren or before a
close paren. The start of the text is like the inside of a paren. -/
def render (ts : List Token) : String := String.join (pieces .opening ts)

end Token
end FlatLisp
