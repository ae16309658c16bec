/-
  The parse tree: what the grammar reads, before it is known to be a tree of
  the document. Its records are loosely typed, a tag with fields that may be
  absent; `Node.ofParseTree` decides which of them make sense.
-/

namespace LatexFormatter

/-- The tag of a record. -/
inductive RecordKind where
  | whitespace
  | parbreak
  | command
  | environment
  | mathEnvironment
  | inlineMath
  | displayMath
  | group
  | subscript
  | superscript
  | verbatim
  | verb
  | commentEnvironment
  | comment
  | arguments
  deriving Repr, DecidableEq

/-- The name a tag goes by in written trees. -/
def RecordKind.tag : RecordKind → String
  | .whitespace => "whitespace"
  | .parbreak => "parbreak"
  | .command => "macro"
  | .environment => "environment"
  | .mathEnvironment => "mathenv"
  | .inlineMath => "inlinemath"
  | .displayMath => "displaymath"
  | .group => "group"
  | .subscript => "subscript"
  | .superscript => "superscript"
  | .verbatim => "verbatim"
  | .verb => "verb"
  | .commentEnvironment => "commentenv"
  | .comment => "comment"
  | .arguments => "arglist"

/-- All tags. -/
def RecordKind.all : List RecordKind :=
  [.whitespace, .parbreak, .command, .environment, .mathEnvironment, .inlineMath, .displayMath,
    .group, .subscript, .superscript, .verbatim, .verb, .commentEnvironment, .comment, .arguments]

/-- The tag with the given name. -/
def RecordKind.ofTag? (tag : String) : Option RecordKind :=
  all.find? (·.tag == tag)

/-- A tree as the grammar reads it: a run of characters, a list, or a tagged
record. A record may carry the name of a command or environment, its content,
its argument list, whether a comment follows other content on its line, and the
delimiter of literal text. -/
inductive ParseTree where
  | text (content : String)
  | list (items : List ParseTree)
  | record (kind : RecordKind) (name : Option String) (content : Option ParseTree)
      (args : Option ParseTree) (sameline : Bool) (delimiter : Option Char)
  deriving Repr, Inhabited

namespace ParseTree

/-- A record that is nothing but its tag. -/
def bare (kind : RecordKind) : ParseTree := record kind none none none false none

/-- A record around a list. -/
def enclosing (kind : RecordKind) (items : List ParseTree) : ParseTree :=
  record kind none (some (list items)) none false none

/-- A record around literal characters. -/
def literal (kind : RecordKind) (content : List Char) : ParseTree :=
  record kind none (some (text (String.ofList content))) none false none

/-- A run of characters. -/
def chars (content : List Char) : ParseTree := text (String.ofList content)

/-- The number of items of a list; anything else has none. -/
def size : ParseTree → Nat
  | list items => items.length
  | _ => 0

end ParseTree

end LatexFormatter
