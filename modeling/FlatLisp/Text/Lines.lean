/-! The lines of a text. -/
namespace FlatLisp

/-- The lines, where `line` holds the characters of the first one that were read, in reverse. -/
def linesFrom (line : List Char) : List Char → List (List Char)
  | [] => if line.isEmpty then [] else [line.reverse]
  | c :: cs => if c = '\n' then line.reverse :: linesFrom [] cs else linesFrom (c :: line) cs

/-- The lines without their line breaks. The last line needs none. -/
def splitLines (text : List Char) : List (List Char) := linesFrom [] text

end FlatLisp
