import LatexFormatter.Error

/-
  Findings about a text, for people to read: what was found, where, the line it
  was found on with a mark under the place, and what to do about it.
-/

namespace LatexFormatter

/-- How much a finding matters. -/
inductive Severity where
  /-- Formatting will change this; nothing is wrong. -/
  | note
  /-- The text cannot be formatted. -/
  | error
  deriving Repr, DecidableEq

namespace Severity

def label : Severity → String
  | note => "note"
  | error => "error"

/-- The terminal code that switches to the colour of a severity. -/
def color : Severity → String
  | note => "\x1b[34m"
  | error => "\x1b[31m"

end Severity

/-- A finding, which may be pinned to a place. -/
structure Diagnostic where
  severity : Severity
  message : String
  location : Option Location := none
  /-- The line that the location lies on. -/
  lineText : Option String := none
  help : Option String := none
  deriving Repr, DecidableEq

namespace Diagnostic

/-- The text of a line by number, from one on. Number zero is the first line
too. -/
def lineAt? (source : List Char) (number : Nat) : Option String :=
  (linesOf source)[number - 1]?.map fun line => String.ofList line.text

/-- Pins a finding to a place in a text. -/
def pin (location : Location) (source : String) (diagnostic : Diagnostic) : Diagnostic :=
  { diagnostic with
    location := some location
    lineText := lineAt? source.toList location.line }

/-- Adds what to do about a finding. -/
def withHelp (help : String) (diagnostic : Diagnostic) : Diagnostic :=
  { diagnostic with help := some help }

/-! ## What to do about a syntax error -/

/-- What stands between two given texts, if it starts and ends with them. -/
def between? (opening closing cs : List Char) : Option (List Char) :=
  if opening.isPrefixOf cs then
    let rest := cs.drop opening.length
    if closing.isSuffixOf rest then some (rest.take (rest.length - closing.length)) else none
  else none

/-- The name of the environment whose end is expected. The alternatives are in
quotes, and so is the name. -/
def expectedEnd? (error : SyntaxError) : Option String :=
  (error.expected.findSome? fun alternative =>
    between? ['"', '\\', '\\', 'e', 'n', 'd', '{'] ['}', '"'] alternative.toList).map String.ofList

/-- Whether the given characters are expected. -/
def expects (error : SyntaxError) (literal : String) : Bool :=
  error.expected.contains (Text.quoted literal)

/-- What to do about a common kind of syntax error. -/
def suggestion? (error : SyntaxError) : Option String :=
  if error.isStructuralMismatch then
    (expectedEnd? error).map fun name =>
      match error.found with
      | some _ =>
        s!"environment '{name}' is closed by a different \\end; use \\end\x7b{name}\x7d"
      | none => s!"environment '{name}' is never closed; add \\end\x7b{name}\x7d"
  else
    match ["$$", "$", "\\]", "\\)"].find? (expects error) with
    | some closing => some s!"math is never closed; add {closing}"
    | none =>
      if expects error "\x7d" && error.found.isNone then
        some "group is never closed; add '\x7d'"
      else if expects error "]" then some "optional argument is never closed; add ']'"
      else none

/-- The finding that a text cannot be read. -/
def ofSyntaxError (error : SyntaxError) (source : String) : Diagnostic :=
  let diagnostic : Diagnostic := { severity := .error, message := error.detail }
  let pinned := diagnostic.pin error.location source
  { pinned with help := suggestion? error }

/-! ## Showing a finding -/

/-- The blanks up to a column. Tabs stay tabs, so that what follows stands under
that column. -/
def padding (text : String) (column : Nat) : String :=
  String.ofList ((text.toList.take (column - 1)).map fun c => if c == '\t' then '\t' else ' ')

/-- A finding as it is shown. -/
def display (diagnostic : Diagnostic) : String :=
  let heading := s!"{diagnostic.severity.label}: {diagnostic.message}"
  match diagnostic.location with
  | none => heading
  | some location =>
    let number := toString location.line
    let gutter := String.ofList (List.replicate number.length ' ')
    let excerpt := match diagnostic.lineText with
      | none => ""
      | some text =>
        s!"\n{gutter} |\n{number} | {text}\n{gutter} | {padding text location.column}^"
    let help := match diagnostic.help with
      | none => ""
      | some help => s!"\n{gutter} = help: {help}"
    s!"{heading}\n{gutter} --> {location.display}{excerpt}{help}"

end Diagnostic

end LatexFormatter
