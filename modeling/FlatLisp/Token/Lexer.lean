import FlatLisp.Fault
import FlatLisp.Text.Blank

/-! From text to tokens: comments go first, then the parens are counted over the whole text, and
only a balanced text is cut into tokens. -/
namespace FlatLisp.Lexer

/-- The text without its comments. A comment starts at a semicolon and ends before the line
break, which stays; `inside` says that one has started. -/
def stripFrom (inside : Bool) : List Char → List Char
  | [] => []
  | '\n' :: cs => '\n' :: stripFrom false cs
  | c :: cs => if inside || c = ';' then stripFrom true cs else c :: stripFrom false cs

def stripComments (text : List Char) : List Char := stripFrom false text

/-- What is wrong with the parens of a text, of which `depth` are open. Offsets count bytes. -/
def imbalanceFrom (offset depth : Nat) : List Char → Option Imbalance
  | [] => if depth = 0 then none else some (.unclosed depth)
  | c :: cs =>
    let next := offset + c.utf8Size
    if c = '(' then imbalanceFrom next (depth + 1) cs
    else if c = ')' then
      match depth with
      | 0 => some (.strayClose offset)
      | depth + 1 => imbalanceFrom next depth cs
    else imbalanceFrom next depth cs

def imbalance? (text : List Char) : Option Imbalance := imbalanceFrom 0 0 text

/-- The atom whose characters were read, the last one first. -/
def pendingAtom (word : List Char) : List Token :=
  if word.isEmpty then [] else [.atom (String.ofList word.reverse)]

/-- The tokens of a text. `word` holds the characters of the atom that is being read. -/
def cutFrom (word : List Char) : List Char → List Token
  | [] => pendingAtom word
  | c :: cs =>
    if c = '(' then pendingAtom word ++ .openParen :: cutFrom [] cs
    else if c = ')' then pendingAtom word ++ .closeParen :: cutFrom [] cs
    else if isBlank c then pendingAtom word ++ cutFrom [] cs
    else cutFrom (c :: word) cs

def cut (text : List Char) : List Token := cutFrom [] text

/-- The tokens of a text, without its comments if the language has them. -/
def tokenize (comments : Bool) (source : String) : Except Fault (List Token) :=
  let text := if comments then stripComments source.toList else source.toList
  match imbalance? text with
  | some cause => .error (.unbalanced cause)
  | none => .ok (cut text)

end FlatLisp.Lexer
