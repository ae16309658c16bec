import LatexFormatter.Vocabulary

/-
  The document tree. A node is one of the constructs of the markup; its
  children lie in up to two slots, its content and its optional arguments.
  A tree says nothing about where it was read from and holds no links to
  parents or neighbours: those are derived when they are asked for.
-/

namespace LatexFormatter

/-- The two marks that make a script. -/
inductive Mark where
  | sub
  | sup
  deriving Repr, DecidableEq

/-- The character of a mark. -/
def Mark.char : Mark → Char
  | sub => '_'
  | sup => '^'

/-- A node of the document tree. -/
inductive Node where
  /-- A sequence; the whole document is one. -/
  | list (content : List Node)
  /-- A run of ordinary characters. -/
  | string (content : String)
  | whitespace
  | parbreak
  /-- A command by name, with optional arguments. -/
  | command (name : String) (args : Option (List Node))
  | environment (name : String) (args : Option (List Node)) (body : List Node)
  /-- An environment whose body is math; it takes no arguments. -/
  | mathEnvironment (name : String) (body : List Node)
  | inlineMath (content : List Node)
  | displayMath (content : List Node)
  | group (content : List Node)
  /-- A subscript or superscript, possibly of nothing. -/
  | script (mark : Mark) (base : Option Node)
  /-- An environment whose body is kept as it is. -/
  | verbatim (content : String)
  /-- Literal text within a line, between two copies of a delimiter. -/
  | verb (delimiter : Char) (content : String)
  /-- A block comment. -/
  | commentEnvironment (content : String)
  /-- A comment to the end of the line, which may follow other content. -/
  | comment (content : String) (sameline : Bool)
  /-- Arguments in brackets that belong to no command. -/
  | arguments (content : List Node)
  deriving Repr, Inhabited

/-- Where a node keeps children. -/
inductive Slot where
  /-- The body, or the base of a script. -/
  | content
  /-- The optional arguments. -/
  | args
  deriving Repr, DecidableEq, Hashable

def Slot.name : Slot → String
  | content => "content"
  | args => "args"

namespace Node

/-- The name a kind of node goes by in written trees. -/
def kind : Node → String
  | list _ => "nodelist"
  | string _ => "string"
  | whitespace => "whitespace"
  | parbreak => "parbreak"
  | command _ _ => "macro"
  | environment _ _ _ => "environment"
  | mathEnvironment _ _ => "mathenv"
  | inlineMath _ => "inlinemath"
  | displayMath _ => "displaymath"
  | group _ => "group"
  | script .sub _ => "subscript"
  | script .sup _ => "superscript"
  | verbatim _ => "verbatim"
  | verb _ _ => "verb"
  | commentEnvironment _ => "commentenv"
  | comment _ _ => "comment"
  | arguments _ => "arglist"

/-- The name of a command or environment. -/
def name? : Node → Option String
  | command name _ => some name
  | environment name _ _ => some name
  | mathEnvironment name _ => some name
  | verbatim _ => some verbatimName
  | commentEnvironment _ => some commentName
  | _ => none

/-- White space or a paragraph break. -/
def isSpace : Node → Bool
  | whitespace => true
  | parbreak => true
  | _ => false

/-- A block of its own, around which space means nothing. -/
def isEnvironmentLike : Node → Bool
  | environment _ _ _ => true
  | mathEnvironment _ _ => true
  | verbatim _ => true
  | commentEnvironment _ => true
  | _ => false

/-- The list a node keeps in a slot, if it keeps a list there. -/
def list? : Slot → Node → Option (List Node)
  | .content, list content => some content
  | .content, environment _ _ body => some body
  | .content, mathEnvironment _ body => some body
  | .content, inlineMath content => some content
  | .content, displayMath content => some content
  | .content, group content => some content
  | .content, arguments content => some content
  | .args, command _ args => args
  | .args, environment _ args _ => args
  | _, _ => none

/-- The children in a slot, if the node has that slot. The base of a script is
its only child. -/
def children? (slot : Slot) (node : Node) : Option (List Node) :=
  match slot, node with
  | .content, script _ base => base.map fun only => [only]
  | slot, node => node.list? slot

/-- Puts another list in the place of the one in a slot. A node without such a
list stays as it is. -/
def withList (slot : Slot) (items : List Node) (node : Node) : Node :=
  match slot, node with
  | .content, list _ => list items
  | .content, environment name args _ => environment name args items
  | .content, mathEnvironment name _ => mathEnvironment name items
  | .content, inlineMath _ => inlineMath items
  | .content, displayMath _ => displayMath items
  | .content, group _ => group items
  | .content, arguments _ => arguments items
  | .args, command name (some _) => command name (some items)
  | .args, environment name (some _) body => environment name (some items) body
  | _, node => node

end Node

end LatexFormatter
