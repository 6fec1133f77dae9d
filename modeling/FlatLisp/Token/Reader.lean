import FlatLisp.Token.Lexer

/-! The lexer put together from readers. A reader takes what it reads from the front of a text, or
it refuses the text. -/
namespace FlatLisp

/-- What is read, and the text behind it. -/
abbrev Reader (α : Type) : Type := List Char → Option (α × List Char)

namespace Reader
variable {α β : Type}

def char (c : Char) : Reader Char
  | [] => none
  | d :: text => if d = c then some (d, text) else none

/-- The characters of a kind at the front, of which there may be none. -/
def takeWhile (p : Char → Bool) : Reader (List Char) := fun text =>
  some (text.takeWhile p, text.dropWhile p)

/-- The same, but there must be one at least. -/
def takeWhile1 (p : Char → Bool) : Reader (List Char) := fun text =>
  if (text.takeWhile p).isEmpty then none else takeWhile p text

def map (f : α → β) (r : Reader α) : Reader β := fun text =>
  (r text).map fun (a, rest) => (f a, rest)

/-- What the first reader takes, or else the second one. -/
def orElse (first second : Reader α) : Reader α := fun text => (first text).or (second text)

def optional (r : Reader α) : Reader (Option α) := (r.map some).orElse fun text => some (none, text)

/-- What the second reader takes behind the first one. -/
def preceded (first : Reader α) (second : Reader β) : Reader β := fun text =>
  (first text).bind fun (_, rest) => second rest

/-- All that the reader takes, one after another, until it refuses the rest. It is refused to read
on where nothing is taken, since that would have no end. -/
def many (r : Reader α) : Reader (List α) := fun text =>
  match r text with
  | none => some ([], text)
  | some (a, rest) =>
    if rest.length < text.length then (many r rest).map fun (as, last) => (a :: as, last)
    else none
termination_by text => text.length

/-- The reader takes the whole text. -/
def takesAll (r : Reader α) (text : List Char) : Bool :=
  match r text with
  | some (_, rest) => rest.isEmpty
  | none => false

end Reader

namespace Lexer

def numeral : Reader (List Char) :=
  (Reader.char '-').optional.preceded (Reader.takeWhile1 Char.isDigit)

def inWord (c : Char) : Bool := !(isBlank c || c = '(' || c = ')')

def word : Reader Token :=
  (Reader.takeWhile1 inWord).map fun text =>
    ⟨if numeral.takesAll text then .number else .symbol, String.ofList text⟩

/-- A token with the blanks in front of it. -/
def token : Reader Token :=
  (Reader.takeWhile isBlank).preceded
    (((Reader.char '(').map fun _ => .openParen).orElse
      (((Reader.char ')').map fun _ => .closeParen).orElse word))

/-- The tokens of a text, without its comments if the language has them, as the readers take them.
Of a text whose parens balance only blanks should be left, and some of it be taken each time. -/
def readTokens (comments : Bool) (source : String) : Except Fault (List Token) :=
  let text := if comments then stripComments source.toList else source.toList
  match imbalance? text with
  | some cause => .error (.unbalanced cause)
  | none =>
    match token.many text with
    | some (tokens, rest) =>
      if rest.all isBlank then .ok tokens
      else
        let near := String.ofList (rest.take 10)
        .error (.malformed (.described s!"unexpected input near '{near}'"))
    | none => .error (.malformed (.described "tokenizer failed"))

end Lexer
end FlatLisp
