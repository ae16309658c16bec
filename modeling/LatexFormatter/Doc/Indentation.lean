import LatexFormatter.Doc.Basic
import LatexFormatter.Options

/-
  Indentation as the sequence of changes that led to it. The text that a line
  starts with, and its width, follow from the sequence alone. Columns that end
  it are written as spaces; columns that more indentation follows are written
  as tabs where tabs are used, one for each change.

  Widths are natural numbers here, where the program has words of 64 bits. They
  are cut when a line starts with them (`Machine.startLine`), and since sums and
  products keep their lowest bits this is the same word (`signed64_mod`). The
  columns that are due are not cut at all: if they came to 2^64, so would the
  spaces to be written.

  Correspondence (program ↔ Lean):
    `Indentation`               ↔ `Margin`, with its `root`s in `Indentation.roots`
    `IndentWriter`              ↔ `IndentWriter`
    `add_tabs`, `add_spaces`    ↔ `IndentWriter.addTabs`, `IndentWriter.addSpaces`
    `flush`, `reset_last`       ↔ `IndentWriter.flush`, `IndentWriter.settle`
    `generate_indent`           ↔ `Margin.ofParts`, `Indentation.push`, `Indentation.pop`
    `make_indent`, `make_align` ↔ `Indentation.indent`, `Indentation.align`
-/

namespace LatexFormatter.Doc

/-- One change of indentation. -/
inductive IndentPart where
  | level
  | text (content : List Char)
  | columns (count : Nat)
  deriving Repr, DecidableEq

/-- Indentation being written: what there is so far, and the columns that are
still due, as a number of changes and as a number of spaces. -/
structure IndentWriter where
  value : List Char := []
  length : Nat := 0
  dueTabs : Nat := 0
  dueSpaces : Nat := 0
  deriving Repr, DecidableEq

namespace IndentWriter

def addTabs (options : LayoutOptions) (count : Nat) (writer : IndentWriter) : IndentWriter :=
  { writer with
    value := writer.value ++ List.replicate count '\t'
    length := writer.length + options.tabWidth * count }

def addSpaces (count : Nat) (writer : IndentWriter) : IndentWriter :=
  { writer with
    value := writer.value ++ List.replicate count ' '
    length := writer.length + count }

/-- Forgets the columns that were due. -/
def settle (writer : IndentWriter) : IndentWriter :=
  { writer with dueTabs := 0, dueSpaces := 0 }

/-- Writes the columns that are due, as tabs or as spaces. -/
def flush (options : LayoutOptions) (writer : IndentWriter) : IndentWriter :=
  if options.useTabs then (writer.addTabs options writer.dueTabs).settle
  else (writer.addSpaces writer.dueSpaces).settle

/-- Writes one change. -/
def add (options : LayoutOptions) (writer : IndentWriter) : IndentPart → IndentWriter
  | .level =>
    let writer := writer.flush options
    if options.useTabs then writer.addTabs options 1 else writer.addSpaces options.tabWidth
  | .text content =>
    let writer := writer.flush options
    { writer with
      value := writer.value ++ content, length := writer.length + content.length }
  | .columns count =>
    { writer with dueTabs := writer.dueTabs + 1, dueSpaces := writer.dueSpaces + count }

end IndentWriter

/-- A sequence of changes, outermost first, with the text it amounts to and the
width of that text. -/
structure Margin where
  parts : List IndentPart := []
  value : List Char := []
  length : Nat := 0
  deriving Repr, DecidableEq

/-- The margin of a sequence of changes. -/
def Margin.ofParts (options : LayoutOptions) (parts : List IndentPart) : Margin :=
  let writer := parts.foldl (IndentWriter.add options) {}
  let written := writer.addSpaces writer.dueSpaces
  { parts := parts, value := written.value, length := written.length }

/-- The current margin, and the margins that have been marked, innermost
first. -/
structure Indentation where
  margin : Margin := {}
  roots : List Margin := []
  deriving Repr, DecidableEq

namespace Indentation

/-- Adds a change. -/
def push (options : LayoutOptions) (part : IndentPart) (indentation : Indentation) :
    Indentation :=
  { indentation with margin := Margin.ofParts options (indentation.margin.parts ++ [part]) }

/-- Takes the innermost change back. -/
def pop (options : LayoutOptions) (indentation : Indentation) : Indentation :=
  { indentation with margin := Margin.ofParts options indentation.margin.parts.dropLast }

/-- One level more. -/
def indent (options : LayoutOptions) (indentation : Indentation) : Indentation :=
  indentation.push options .level

/-- The marked indentation, or none at all. -/
def root (indentation : Indentation) : Indentation :=
  match indentation.roots with
  | [] => {}
  | margin :: roots => ⟨margin, roots⟩

/-- Changes indentation. No columns and no text are no change. -/
def align (options : LayoutOptions) (alignment : Alignment) (indentation : Indentation) :
    Indentation :=
  match alignment with
  | .dedentToRoot => indentation.root
  | .dedent => indentation.pop options
  | .markRoot => { indentation with roots := indentation.margin :: indentation.roots }
  | .width columns =>
    if columns == 0 then indentation else indentation.push options (.columns columns)
  | .text content =>
    if content.isEmpty then indentation else indentation.push options (.text content.toList)

end Indentation

end LatexFormatter.Doc
