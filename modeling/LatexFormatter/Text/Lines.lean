import LatexFormatter.Vocabulary

/-
  Source text as lines. A line ends at a carriage return and line feed pair, at
  a line feed or at a lone carriage return; the last line has no ending. Every
  character of the text belongs to exactly one line, as part of its text or of
  its ending, so lines and offsets are two views of one text.

  Offsets count the bytes that the text takes in UTF-8; columns count
  characters.
-/

namespace LatexFormatter

/-- The number of bytes the text takes in UTF-8. -/
def utf8Length : List Char → Nat
  | [] => 0
  | c :: cs => c.utf8Size + utf8Length cs

/-- How many characters the line ending at the head of the text has: two for a
carriage return and line feed pair, none where no line ends. -/
def lineEndingLength : List Char → Nat
  | '\r' :: '\n' :: _ => 2
  | '\r' :: _ => 1
  | '\n' :: _ => 1
  | _ => 0

/-- One line of a text: what it says and the characters that end it. -/
structure Line where
  text : List Char
  ending : List Char
  deriving Repr, DecidableEq

/-- The line with its ending. -/
def Line.whole (line : Line) : List Char := line.text ++ line.ending

/-- Puts a character in front of the first line. -/
def addToFirst (c : Char) : List Line → List Line
  | [] => [⟨[c], []⟩]
  | line :: rest => { line with text := c :: line.text } :: rest

/-- The lines of a text. There is always at least one, and only the last has no
ending. -/
def linesOf : List Char → List Line
  | [] => [⟨[], []⟩]
  | '\r' :: '\n' :: rest => ⟨[], ['\r', '\n']⟩ :: linesOf rest
  | '\r' :: rest => ⟨[], ['\r']⟩ :: linesOf rest
  | '\n' :: rest => ⟨[], ['\n']⟩ :: linesOf rest
  | c :: rest => addToFirst c (linesOf rest)

/-- A place in a text: its byte offset, and its line and column counted from
one. -/
structure Location where
  offset : Nat
  line : Nat
  column : Nat
  deriving Repr, DecidableEq

namespace Location

/-- How many whole characters lie in the first `bytes` bytes of the text. -/
def charsWithin : Nat → List Char → Nat
  | _, [] => 0
  | bytes, c :: cs =>
    if c.utf8Size ≤ bytes then charsWithin (bytes - c.utf8Size) cs + 1 else 0

/-- Looks for an offset in the lines from line `number` on, the first of which
starts at byte `start`: it lies on the last line that does not start after
it. -/
def search (offset number start : Nat) : List Line → Location
  | [] => ⟨offset, number, 1⟩
  | [line] => ⟨offset, number, charsWithin (offset - start) line.whole + 1⟩
  | line :: next :: rest =>
    let nextStart := start + utf8Length line.whole
    if nextStart ≤ offset then search offset (number + 1) nextStart (next :: rest)
    else ⟨offset, number, charsWithin (offset - start) line.whole + 1⟩

/-- The place of a byte offset. An offset past the end means the end. -/
def ofOffset (source : List Char) (offset : Nat) : Location :=
  search (min offset (utf8Length source)) 1 0 (linesOf source)

/-- A place as line and column. -/
def display (location : Location) : String := s!"{location.line}:{location.column}"

end Location

end LatexFormatter
