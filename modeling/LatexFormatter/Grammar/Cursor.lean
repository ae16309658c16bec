import LatexFormatter.Text.Lines

/-
  A place in the text while it is read, and the lengths of the small things the
  grammar recognises there without ever failing: blanks, line endings, blank
  lines, numbers and literal strings. Everything that moves a cursor does so by
  `Cursor.skip`, so a cursor only ever moves forward and never past the end.
-/

namespace LatexFormatter

/-- A place in the text: what is still to be read, how many bytes have been
read, and whether only spaces have been read since the line started. -/
structure Cursor where
  rest : List Char
  offset : Nat
  fresh : Bool
  deriving Repr, DecidableEq

namespace Cursor

/-- The start of a text. -/
def start (source : List Char) : Cursor := ⟨source, 0, true⟩

/-- Whether only spaces have been read on the line once `c` has been read
too. -/
def freshAfter (fresh : Bool) (c : Char) : Bool := isLineBreak c || (fresh && isSpace c)

/-- Moves over the next `n` characters. -/
def skip (n : Nat) (here : Cursor) : Cursor where
  rest := here.rest.drop n
  offset := here.offset + utf8Length (here.rest.take n)
  fresh := (here.rest.take n).foldl freshAfter here.fresh

/-- The next character. -/
def peek (here : Cursor) : Option Char := here.rest.head?

/-- The offset of the end of the text. -/
def finalOffset (here : Cursor) : Nat := here.offset + utf8Length here.rest

/-- Whether the given characters come next. -/
def sees (here : Cursor) (literal : List Char) : Bool := literal.isPrefixOf here.rest

end Cursor

/-! ## Lengths at the head of a text -/

/-- How many characters at the head of the text satisfy `p`. -/
def runLength (p : Char → Bool) (cs : List Char) : Nat := (cs.takeWhile p).length

/-- The spaces before the first other character. -/
def spaceLength (cs : List Char) : Nat := runLength isSpace cs

/-- The blanks before the first other character, line endings included. -/
def blankLength (cs : List Char) : Nat := runLength isBlank cs

/-- One stretch of white space: at most one line ending, with the spaces around
it. Zero where there is none. -/
def whitespaceLength (cs : List Char) : Nat :=
  let spaces := spaceLength cs
  let ending := lineEndingLength (cs.drop spaces)
  if ending == 0 then spaces
  else spaces + ending + spaceLength (cs.drop (spaces + ending))

/-- The number of line endings in a text. -/
def countLineEndings : List Char → Nat
  | [] => 0
  | '\r' :: '\n' :: rest => countLineEndings rest + 1
  | '\r' :: rest => countLineEndings rest + 1
  | '\n' :: rest => countLineEndings rest + 1
  | _ :: rest => countLineEndings rest

/-- A paragraph break: all the blanks at the head of the text, if they hold at
least two line endings. Zero where there is none. -/
def parbreakLength (cs : List Char) : Nat :=
  if 2 ≤ countLineEndings (cs.takeWhile isBlank) then blankLength cs else 0

/-- A decimal number with a point and a digit on at least one side of it. Zero
where there is none. -/
def numberLength (cs : List Char) : Nat :=
  let whole := runLength isDigit cs
  match cs.drop whole with
  | '.' :: rest =>
    let fraction := runLength isDigit rest
    if whole == 0 && fraction == 0 then 0 else whole + 1 + fraction
  | _ => 0

/-- How many characters precede the first occurrence of `needle`. -/
def distanceTo? (needle : List Char) : List Char → Option Nat
  | [] => if needle.isEmpty then some 0 else none
  | c :: cs =>
    if needle.isPrefixOf (c :: cs) then some 0
    else (distanceTo? needle cs).map (· + 1)

end LatexFormatter
