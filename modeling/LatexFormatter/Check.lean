import LatexFormatter.Diagnostic
import LatexFormatter.Grammar.Document

/-
  Checking a text without formatting it: the error that keeps it from being
  read, if there is one, and a note for every line with blanks at its end.
-/

namespace LatexFormatter

/-- The findings about a text, an error first and notes in the order of their
lines. -/
structure CheckReport where
  diagnostics : List Diagnostic
  deriving Repr, DecidableEq

namespace CheckReport

/-- The number of findings of a severity. -/
def count (report : CheckReport) (severity : Severity) : Nat :=
  report.diagnostics.countP (·.severity == severity)

def errors (report : CheckReport) : Nat := report.count .error

def notes (report : CheckReport) : Nat := report.count .note

def hasErrors (report : CheckReport) : Bool := 0 < report.errors

def isEmpty (report : CheckReport) : Bool := report.diagnostics.isEmpty

/-- A number of things, in words. -/
def counted (n : Nat) (word : String) : String := if n == 1 then s!"1 {word}" else s!"{n} {word}s"

/-- The numbers of findings, in words. -/
def summary (report : CheckReport) : String :=
  let present := [(report.errors, "error"), (report.notes, "note")].filter (0 < ·.1)
  if present.isEmpty then "no issues found"
  else ", ".intercalate (present.map fun (n, word) => counted n word)

/-- A text in a terminal colour, if colours are used. -/
def paint (useColor : Bool) (color text : String) : String :=
  if useColor then s!"{color}{text}\x1b[0m" else text

/-- A report as it is shown, with the numbers last. -/
def display (report : CheckReport) (useColor : Bool) : String :=
  let findings := report.diagnostics.map fun diagnostic =>
    paint useColor diagnostic.severity.color diagnostic.display ++ "\n\n"
  let color := if report.hasErrors then Severity.error.color else "\x1b[32m"
  String.join findings ++ paint useColor color s!"Summary: {report.summary}"

end CheckReport

/-- The offsets at which lines have blanks at their end, given the offset at
which the first of them starts. -/
def trailingBlankOffsets (start : Nat) : List Line → List Nat
  | [] => []
  | line :: rest =>
    let kept := (line.text.reverse.dropWhile isSpace).reverse
    let here := if kept.length < line.text.length then [start + utf8Length kept] else []
    here ++ trailingBlankOffsets (start + utf8Length line.whole) rest

/-- The note that a line has blanks at its end. -/
def trailingBlankNote (source : String) (offset : Nat) : Diagnostic :=
  let note : Diagnostic :=
    { severity := .note, message := "trailing whitespace will be removed" }
  note.pin (Location.ofOffset source.toList offset) source

/-- Checks a text. -/
def check (source : String) : CheckReport :=
  let error := match readDocument source with
    | .ok _ => []
    | .error error => [Diagnostic.ofSyntaxError error source]
  ⟨error ++ (trailingBlankOffsets 0 (linesOf source.toList)).map (trailingBlankNote source)⟩

end LatexFormatter
