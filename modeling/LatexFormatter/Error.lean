import LatexFormatter.Text.Lines
import LatexFormatter.Text.Quoted

/-
  Everything that can go wrong, as causes. Each kind of error has one function
  that words it; no other module writes an error text.
-/

namespace LatexFormatter

/-! ## Text outside the grammar -/

/-- The text cannot be derived from the grammar: the furthest place that was
reached, what could have stood there, and what was found there (nothing at the
end of the text). -/
structure SyntaxError where
  expected : List String
  found : Option String
  location : Location
  deriving Repr, DecidableEq

namespace SyntaxError

/-- A choice of alternatives: `A`, `A or B`, `A, B, or C`. -/
def alternatives : List String → String
  | [] => "end of input"
  | [one] => one
  | [one, other] => s!"{one} or {other}"
  | first :: rest => ", ".intercalate (first :: rest.dropLast) ++ ", or " ++ rest.getLastD first

/-- What was expected and what was found, in a sentence. -/
def detail (error : SyntaxError) : String :=
  let found := match error.found with
    | some text => Text.quoted text
    | none => "end of input"
  s!"Expected {alternatives error.expected} but {found} found."

/-- Whether an alternative is the end of an environment, written out in
quotes. -/
def isEndTag (alternative : String) : Bool :=
  "\"\\\\end\x7b".toList.isPrefixOf alternative.toList

/-- Whether the failure looks like an environment that is not closed where it
should be. -/
def isStructuralMismatch (error : SyntaxError) : Bool :=
  error.expected.any isEndTag

def message (error : SyntaxError) : String :=
  s!"Syntax error at line {error.location.line}, column {error.location.column}: {error.detail}"

end SyntaxError

/-! ## Trees that are not what they should be -/

/-- Why a tree cannot be built or edited. Kinds of nodes and slots go by the
names that trees are written with. -/
inductive TreeFault where
  /-- A record lacks a field that its kind needs. -/
  | missing (kind field : String)
  /-- Something else stands where an argument list should. -/
  | notArguments (found : String)
  /-- The node keeps no list in that slot. -/
  | noList (kind slot : String)
  /-- The range does not lie within the list. -/
  | outOfBounds (start stop length : Nat)
  /-- The tree cannot be written down, in the words of what was to write it. -/
  | unwritable (detail : String)
  deriving Repr, DecidableEq

def TreeFault.message : TreeFault → String
  | .missing kind field => s!"{kind} without {field}"
  | .notArguments found => s!"argument list expected, found {found}"
  | .noList kind slot => s!"{kind} has no {slot} list"
  | .outOfBounds start stop length =>
    s!"range {start}..{stop} out of bounds for list of length {length}"
  | .unwritable detail => detail

/-! ## Options -/

/-- Why options are refused. -/
inductive OptionFault where
  /-- A width that has to be positive is zero. -/
  | notPositive (key : String)
  /-- A settings file cannot be understood. -/
  | unreadable (path detail : String)
  deriving Repr, DecidableEq

def OptionFault.message : OptionFault → String
  | .notPositive key => s!"{key} must be positive"
  | .unreadable path detail => s!"{path}: {detail}"

/-! ## Files -/

/-- Why a file or stream cannot be used. -/
inductive FileFault where
  | notFound
  | notADirectory
  | isADirectory
  | nameTooLong
  | permissionDenied
  | invalidUtf8
  /-- Any other failure, in the words of the system. -/
  | other (detail : String)
  deriving Repr, DecidableEq

def FileFault.message : FileFault → String
  | .notFound => "No such file or directory (os error 2)"
  | .notADirectory => "Not a directory (os error 20)"
  | .isADirectory => "Is a directory (os error 21)"
  | .nameTooLong => "File name too long (os error 36)"
  | .permissionDenied => "Permission denied (os error 13)"
  | .invalidUtf8 => "stream did not contain valid UTF-8"
  | .other detail => detail

/-! ## Any of them -/

/-- An error of the formatter. -/
inductive FormatError where
  | outsideGrammar (error : SyntaxError)
  | malformedTree (fault : TreeFault)
  | invalidOptions (fault : OptionFault)
  | file (fault : FileFault)
  deriving Repr, DecidableEq

def FormatError.message : FormatError → String
  | .outsideGrammar error => error.message
  | .malformedTree fault => s!"Malformed tree: {fault.message}"
  | .invalidOptions fault => s!"Invalid options: {fault.message}"
  | .file fault => s!"IO error: {fault.message}"

end LatexFormatter
