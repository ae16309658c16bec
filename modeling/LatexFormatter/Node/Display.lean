import LatexFormatter.Node.Basic

/-
  The plain text of a tree: every construct in its usual notation, without any
  layout. White space is one space, a paragraph break is a blank line, and a
  comment brings its own line ending. Math in dollars and in parentheses, and
  scripts with and without braces, have one form each.
-/

namespace LatexFormatter

/-- The opening of an environment. -/
def openingTag (name : String) : List Char :=
  ['\\', 'b', 'e', 'g', 'i', 'n', '{'] ++ name.toList ++ ['}']

/-- The end of an environment. -/
def closingTag (name : String) : List Char :=
  ['\\', 'e', 'n', 'd', '{'] ++ name.toList ++ ['}']

namespace Node

/-- The character of a script base that needs no braces: a string of one
character, alone or as all there is in a group. -/
def singleChar? : Node → Option Char
  | string content => ofString content
  | group [string content] => ofString content
  | _ => none
where
  /-- The character of a string that has just one. -/
  ofString (content : String) : Option Char :=
    match content.toList with
    | [c] => some c
    | _ => none

/-- Whether a node brings its own braces. -/
def isGroup : Node → Bool
  | group _ => true
  | _ => false

mutual

/-- The plain text of a node. -/
def display : Node → List Char
  | list content => displayAll content
  | string content => content.toList
  | whitespace => [' ']
  | parbreak => ['\n', '\n']
  | command name args => '\\' :: name.toList ++ displayArgs args
  | environment name args body =>
    openingTag name ++ displayArgs args ++ displayAll body ++ closingTag name
  | mathEnvironment name body => openingTag name ++ displayAll body ++ closingTag name
  | inlineMath content => '$' :: displayAll content ++ ['$']
  | displayMath content => ['\\', '['] ++ displayAll content ++ ['\\', ']']
  | group content => '{' :: displayAll content ++ ['}']
  | script mark base => mark.char :: displayBase base
  | verbatim content => openingTag verbatimName ++ content.toList ++ closingTag verbatimName
  | verb delimiter content =>
    ['\\', 'v', 'e', 'r', 'b'] ++ delimiter :: content.toList ++ [delimiter]
  | commentEnvironment content => openingTag commentName ++ content.toList ++ closingTag commentName
  | comment content _ => '%' :: content.toList ++ ['\n']
  | arguments content => '[' :: displayAll content ++ [']']

/-- The plain text of a list of nodes, one after the other. -/
def displayAll : List Node → List Char
  | [] => []
  | node :: rest => display node ++ displayAll rest

/-- The plain text of optional arguments. -/
def displayArgs : Option (List Node) → List Char
  | none => []
  | some content => '[' :: displayAll content ++ [']']

/-- The base of a script: bare if it is a single character, otherwise in
braces. -/
def displayBase : Option Node → List Char
  | none => []
  | some base =>
    match base.singleChar? with
    | some c => [c]
    | none => if base.isGroup then display base else '{' :: display base ++ ['}']

end

/-- The plain text of a node as a string. -/
def displayText (node : Node) : String := String.ofList node.display

end Node

end LatexFormatter
