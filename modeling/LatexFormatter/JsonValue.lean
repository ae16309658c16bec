import LatexFormatter.Node.Basic
import LatexFormatter.Text.Quoted

/-
  Trees written as JSON, spread over lines for people to read: two spaces of
  indentation for each level, one member or item to a line.
-/

namespace LatexFormatter

/-- A JSON value, as far as trees need it. The members of an object keep their
order. -/
inductive JsonValue where
  | null
  | boolean (value : Bool)
  | text (value : String)
  | list (items : List JsonValue)
  | object (members : List (String × JsonValue))
  deriving Inhabited

namespace JsonValue

/-- A character inside a JSON string. Only what cannot stand there as it is gets
escaped. -/
def escapedChar (c : Char) : List Char :=
  match c with
  | '"' => ['\\', '"']
  | '\\' => ['\\', '\\']
  | '\n' => ['\\', 'n']
  | '\r' => ['\\', 'r']
  | '\t' => ['\\', 't']
  | '\x08' => ['\\', 'b']
  | '\x0c' => ['\\', 'f']
  | c =>
    if c.toNat < 0x20 then
      let digits := Text.hexDigits c.toNat
      ['\\', 'u'] ++ List.replicate (4 - digits.length) '0' ++ digits
    else [c]

/-- A JSON string. -/
def quotedText (s : String) : List Char := '"' :: s.toList.flatMap escapedChar ++ ['"']

/-- The start of a line at a depth. -/
def lineStart (depth : Nat) : List Char := '\n' :: List.replicate (2 * depth) ' '

mutual

/-- A value as it is written inside `depth` others. -/
def pretty (depth : Nat) : JsonValue → List Char
  | null => ['n', 'u', 'l', 'l']
  | boolean true => ['t', 'r', 'u', 'e']
  | boolean false => ['f', 'a', 'l', 's', 'e']
  | text value => quotedText value
  | list [] => ['[', ']']
  | list (first :: rest) =>
    '[' :: lineStart (depth + 1) ++ pretty (depth + 1) first ++ prettyItems (depth + 1) rest
      ++ lineStart depth ++ [']']
  | object [] => ['{', '}']
  | object (first :: rest) =>
    '{' :: lineStart (depth + 1) ++ prettyMember (depth + 1) first
      ++ prettyMembers (depth + 1) rest ++ lineStart depth ++ ['}']

/-- The items of a list after the first. -/
def prettyItems (depth : Nat) : List JsonValue → List Char
  | [] => []
  | item :: rest => ',' :: lineStart depth ++ pretty depth item ++ prettyItems depth rest

/-- The members of an object after the first. -/
def prettyMembers (depth : Nat) : List (String × JsonValue) → List Char
  | [] => []
  | first :: rest =>
    ',' :: lineStart depth ++ prettyMember depth first ++ prettyMembers depth rest

/-- A member of an object. -/
def prettyMember (depth : Nat) : String × JsonValue → List Char
  | (key, value) => quotedText key ++ [':', ' '] ++ pretty depth value

end

end JsonValue

namespace Node

mutual

/-- A tree as a JSON value. Each node says its kind first. -/
def toJson : Node → JsonValue
  | list content => .object [("type", .text "nodelist"), ("content", .list (toJsonAll content))]
  | string content => .object [("type", .text "string"), ("content", .text content)]
  | whitespace => .object [("type", .text "whitespace")]
  | parbreak => .object [("type", .text "parbreak")]
  | command name args =>
    .object ([("type", .text "macro"), ("name", .text name)] ++ toJsonArgs args)
  | environment name args body =>
    .object ([("type", .text "environment"), ("env", .text name)] ++ toJsonArgs args
      ++ [("content", .list (toJsonAll body))])
  | mathEnvironment name body =>
    .object [("type", .text "mathenv"), ("env", .text name), ("content", .list (toJsonAll body))]
  | inlineMath content =>
    .object [("type", .text "inlinemath"), ("content", .list (toJsonAll content))]
  | displayMath content =>
    .object [("type", .text "displaymath"), ("content", .list (toJsonAll content))]
  | group content => .object [("type", .text "group"), ("content", .list (toJsonAll content))]
  | script mark base =>
    .object [("type", .text (match mark with | .sub => "subscript" | .sup => "superscript")),
      ("content", toJsonBase base)]
  | verbatim content => .object [("type", .text "verbatim"), ("content", .text content)]
  | verb delimiter content =>
    .object [("type", .text "verb"), ("delimiter", .text (String.ofList [delimiter])),
      ("content", .text content)]
  | commentEnvironment content =>
    .object [("type", .text "commentenv"), ("content", .text content)]
  | comment content sameline =>
    .object [("type", .text "comment"), ("content", .text content), ("sameline", .boolean sameline)]
  | arguments content =>
    .object [("type", .text "arglist"), ("content", .list (toJsonAll content))]

/-- Several trees as JSON values. -/
def toJsonAll : List Node → List JsonValue
  | [] => []
  | node :: rest => toJson node :: toJsonAll rest

/-- Optional arguments as a member, which is left out if there are none. -/
def toJsonArgs : Option (List Node) → List (String × JsonValue)
  | none => []
  | some content => [("args", .object [("content", .list (toJsonAll content))])]

/-- The base of a script as a JSON value. -/
def toJsonBase : Option Node → JsonValue
  | none => .null
  | some base => toJson base

end

/-- A tree as JSON text. -/
def jsonText (node : Node) : String := String.ofList (node.toJson.pretty 0)

end Node

end LatexFormatter
