import LatexFormatter.Error
import LatexFormatter.Node.Basic
import LatexFormatter.ParseTree

/-
  From parse trees to document trees. A list becomes a sequence, a run of
  characters a string, and a record the node its tag names, provided it has the
  fields that node needs. The arguments of a record are looked at first, then
  its name or delimiter, then its content; the first fault found is the one
  reported.
-/

namespace LatexFormatter.Node

/-- A field that has to be there. -/
def required {α : Type} (kind : RecordKind) (field : String) : Option α → Except TreeFault α
  | some value => .ok value
  | none => .error (.missing kind.tag field)

/-- The characters of a record that holds literal text. -/
def requiredText (kind : RecordKind) : Option ParseTree → Except TreeFault String
  | some (.text content) => .ok content
  | _ => .error (.missing kind.tag "text content")

/-- The list that stands for arguments. -/
def argumentContent : Node → Except TreeFault (List Node)
  | arguments content => .ok content
  | list content => .ok content
  | other => .error (.notArguments other.kind)

mutual

/-- Builds the document tree of a parse tree. -/
def ofParseTree : ParseTree → Except TreeFault Node
  | .text content => .ok (string content)
  | .list items => list <$> ofItems items
  | .record kind name content args sameline delimiter => do
    let args ← ofArgs args
    match kind with
    | .whitespace => return whitespace
    | .parbreak => return parbreak
    | .command => return command (← required kind "name" name) args
    | .environment => return environment (← required kind "name" name) args (← ofContent content)
    | .mathEnvironment => return mathEnvironment (← required kind "name" name) (← ofContent content)
    | .inlineMath => return inlineMath (← ofContent content)
    | .displayMath => return displayMath (← ofContent content)
    | .group => return group (← ofContent content)
    | .subscript => return script .sub (← ofBase content)
    | .superscript => return script .sup (← ofBase content)
    | .verbatim => return verbatim (← requiredText kind content)
    | .verb => return verb (← required kind "delimiter" delimiter) (← requiredText kind content)
    | .commentEnvironment => return commentEnvironment (← requiredText kind content)
    | .comment => return comment (← requiredText kind content) sameline
    | .arguments => return arguments (← ofContent content)

/-- Builds each tree of a list. -/
def ofItems : List ParseTree → Except TreeFault (List Node)
  | [] => .ok []
  | item :: rest => do return (← ofParseTree item) :: (← ofItems rest)

/-- The content of a record as a list: absent content is empty, and content that
is no list is the only child. -/
def ofContent : Option ParseTree → Except TreeFault (List Node)
  | none => .ok []
  | some (.list items) => ofItems items
  | some (.text content) => .ok [string content]
  | some (.record kind name content args sameline delimiter) => do
    return [← ofParseTree (.record kind name content args sameline delimiter)]

/-- The base of a script. -/
def ofBase : Option ParseTree → Except TreeFault (Option Node)
  | none => .ok none
  | some base => some <$> ofParseTree base

/-- The arguments of a record. -/
def ofArgs : Option ParseTree → Except TreeFault (Option (List Node))
  | none => .ok none
  | some args => do return some (← argumentContent (← ofParseTree args))

end

end LatexFormatter.Node
