import LatexFormatter.Grammar.Rules

/-
  Reading a whole document. The document is one sequence of text tokens and has
  to reach the end of the text; otherwise the report says what was expected at
  the furthest place that any attempt came to.
-/

namespace LatexFormatter

/-- The character that starts at a byte offset. -/
def charAtOffset? : List Char → Nat → Option Char
  | [], _ => none
  | c :: cs, offset => if offset == 0 then some c else charAtOffset? cs (offset - c.utf8Size)

/-- The error that the memory of a failed reading amounts to. -/
def Memory.report (memory : Memory) (source : List Char) : SyntaxError where
  expected := memory.expected
  found := (charAtOffset? source memory.furthest).map fun c => String.ofList [c]
  location := Location.ofOffset source memory.furthest

/-- The sequence of tokens at the top of a document. -/
def readSequence (retrieve : Retrieval) (source : List Char) : (Cursor × List ParseTree) × Memory :=
  ((Ahead.within retrieve (source.length + 1)).sequence .text none (Cursor.start source)).run
    Memory.blank

/-- Reads a document, obtaining constructs as `retrieve` says. -/
def readDocumentBy (retrieve : Retrieval) (source : List Char) : Except SyntaxError ParseTree :=
  let ((stop, items), memory) := readSequence retrieve source
  if stop.rest.isEmpty then .ok (.list items)
  else .error ((memory.expect stop.offset "end of input").report source)

/-- Reads a document; the result is the list of its tokens. -/
def readDocument (source : String) : Except SyntaxError ParseTree :=
  readDocumentBy Retrieval.cached source.toList

end LatexFormatter
