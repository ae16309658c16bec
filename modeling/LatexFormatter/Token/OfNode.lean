import LatexFormatter.Node.Display
import LatexFormatter.Token.Basic

/-
  The token stream of a tree. Text becomes pieces of text in document order;
  around them stand the directives that each construct asks for. Directives
  that open something are closed again within the same construct.

  Correspondence (program ↔ Lean):
    `to_tokens`, `push_node` ↔ `ofNode`
    `push_all`               ↔ `ofNodes`
    `push_args`              ↔ `ofArgs`
    `push_block`             ↔ the cases of environments in `ofNode`
    `push_script`            ↔ `ofScript`
    `push_opaque`            ↔ `literal`
-/

namespace LatexFormatter.Token

/-- A piece of text given by its characters. -/
def chars (cs : List Char) : Token := text (String.ofList cs)

/-- Text that is never wrapped. -/
def literal (cs : List Char) : List Token := [noWrap, chars cs, endNoWrap]

/-- The directive before a command: some commands start a line or a
paragraph. -/
def beforeCommand (name : String) : List Token :=
  if startsLine name then [ensureNewline]
  else if startsParagraph name then [preferParagraph]
  else []

mutual

/-- The token stream of a node. -/
def ofNode : Node → List Token
  | .list content => ofNodes content
  | .string content => [text content]
  | .whitespace => [space]
  | .parbreak => [paragraphBreak]
  | .command name args => beforeCommand name ++ chars ('\\' :: name.toList) :: ofArgs args
  | .environment name args body =>
    [ensureNewline, chars (openingTag name), indent] ++ ofArgs args ++ newline :: ofNodes body
      ++ [endIndent, newline, chars (closingTag name)]
  | .mathEnvironment name body =>
    [ensureNewline, chars (openingTag name), indent] ++ newline :: ofNodes body
      ++ [endIndent, newline, chars (closingTag name)]
  | .inlineMath content => text "$" :: ofNodes content ++ [text "$"]
  | .displayMath content =>
    [ensureNewline, text "\\[", indent, newline] ++ ofNodes content
      ++ [endIndent, newline, text "\\]"]
  | .group content => [noWrap, text "\x7b"] ++ ofNodes content ++ [text "\x7d", endNoWrap]
  | .script mark base => ofScript mark base
  | .verbatim content => ensureNewline :: literal (Node.verbatim content).display
  | .verb delimiter content => literal (Node.verb delimiter content).display
  | .commentEnvironment content =>
    ensureNewline :: literal (Node.commentEnvironment content).display ++ [newline]
  | .comment content sameline =>
    (if sameline then [] else [ensureNewline]) ++ [chars ('%' :: content.toList), newline]
  | .arguments content => text "[" :: ofNodes content ++ [text "]"]

/-- The token streams of several nodes, one after the other. -/
def ofNodes : List Node → List Token
  | [] => []
  | node :: rest => ofNode node ++ ofNodes rest

/-- The token stream of optional arguments. -/
def ofArgs : Option (List Node) → List Token
  | none => []
  | some content => text "[" :: ofNodes content ++ [text "]"]

/-- The token stream of a script: one piece of text if its base is a single
character, otherwise the mark and the base in braces. -/
def ofScript (mark : Mark) : Option Node → List Token
  | none => [chars [mark.char]]
  | some base =>
    match base.singleChar? with
    | some c => [chars [mark.char, c]]
    | none =>
      if base.isGroup then chars [mark.char] :: ofNode base
      else chars [mark.char, '{'] :: ofNode base ++ [text "\x7d"]

end

end LatexFormatter.Token
