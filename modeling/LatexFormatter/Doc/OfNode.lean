import LatexFormatter.Doc.Basic
import LatexFormatter.Ending
import LatexFormatter.Node.Display

/-
  The document of a tree. Words become the pieces of a fill, so that lines break
  between them as late as possible; argument lists become groups that break
  after their commas. Breaks follow the same discipline as in the token stream,
  so where nothing has to wrap both printers print the same.

  Correspondence (program ↔ Lean):
    `DocBuilder` and `Acc`            ↔ `Builder`
    `Acc::push`, `separate`, `finish` ↔ `Builder.push`, `separate`, `finish`
    `text_doc`                        ↔ `multiline`
    `resolve_space`, `text`, `space`  ↔ `Builder.resolveSpace`, `write`, `putSpace`
    `hard_break`, `newline`           ↔ `Builder.hardBreak`, `newline`
    `ensure_newline`                  ↔ `Builder.ensureNewline`
    `paragraph_break`                 ↔ `Builder.leaveParagraph`
    `prefer_paragraph`                ↔ `Builder.preferParagraph`
    `opaque`                          ↔ `Builder.writeLiteral`
    `block`                           ↔ the cases of environments in `addNode`, `Builder.closeBody`
    `args`                            ↔ `addItems`, between `openArguments` and `closeArguments`
    `node`, `nodes`, `script`         ↔ `addNode`, `addNodes`, `addScript`
    `to_doc`                          ↔ `ofNode`
  The program hands a fresh `Acc` to what is nested and keeps the rest of its
  state; here the builder is copied without its parts (`Builder.nested`) and its
  state taken over afterwards (`Builder.resume`).
-/

namespace LatexFormatter.Doc

/-- The pieces of a text between its line feeds. There is always at least
one. -/
def pieces : List Char → List (List Char)
  | [] => [[]]
  | c :: cs =>
    if c == '\n' then [] :: pieces cs
    else match pieces cs with
      | [] => [[c]]
      | first :: rest => (c :: first) :: rest

/-- The document of a piece, which is none if it is empty. -/
def ofPiece (piece : List Char) : List Doc := if piece.isEmpty then [] else [chars piece]

/-- Text that may span lines. Lines after the first are not indented. -/
def multiline (content : List Char) : Doc :=
  match pieces content with
  | [] => chars content
  | [_] => chars content
  | first :: rest => concat (ofPiece first ++ rest.flatMap fun piece => literalline :: ofPiece piece)

/-- A document being built. -/
structure Builder where
  ending : Ending := .start
  /-- How many constructs that forbid wrapping are open. -/
  noWrap : Nat := 0
  /-- Whether a space is still to be put before the next text. -/
  pendingSpace : Bool := false
  /-- The finished pieces and separators of the current fill, last first. -/
  parts : List Doc := []
  /-- The piece being put together, last first. -/
  piece : List Doc := []

namespace Builder

/-- Adds to the current piece. -/
def push (doc : Doc) (builder : Builder) : Builder :=
  { builder with piece := doc :: builder.piece }

/-- Ends the current piece with a separator. -/
def separate (separator : Doc) (builder : Builder) : Builder :=
  { builder with
    parts := separator :: concat builder.piece.reverse :: builder.parts, piece := [] }

/-- The document built so far: a fill if there is more than one piece. -/
def finish (builder : Builder) : Doc :=
  match builder.parts, builder.piece with
  | [], [only] => only
  | [], piece => concat piece.reverse
  | parts, piece => fill (concat piece.reverse :: parts).reverse

/-- A builder for a nested document that goes on where this one stands. -/
def nested (builder : Builder) : Builder := { builder with parts := [], piece := [] }

/-- Goes on where a nested builder stopped, without what it has built. -/
def resume (builder inner : Builder) : Builder :=
  { inner with parts := builder.parts, piece := builder.piece }

/-- Forbids wrapping. -/
def hold (builder : Builder) : Builder := { builder with noWrap := builder.noWrap + 1 }

/-- Allows wrapping again. -/
def release (builder : Builder) : Builder := { builder with noWrap := builder.noWrap - 1 }

/-- Puts a space that is due before `next`: the line may break there if `next`
may start one. -/
def resolveSpace (next : List Char) (builder : Builder) : Builder :=
  if builder.pendingSpace then
    let builder := { builder with pendingSpace := false }
    if builder.noWrap == 0 && isWrappable next then builder.separate space
    else builder.push (text " ")
  else builder

/-- Adds text. -/
def write (content : List Char) (builder : Builder) : Builder :=
  { (builder.resolveSpace content).push (multiline content) with ending := .content }

/-- A space, which counts only after something. -/
def putSpace (builder : Builder) : Builder :=
  if builder.ending == .content then { builder with pendingSpace := true } else builder

/-- Breaks the line `count` times. -/
def hardBreak (count : Nat) (ending : Ending) (builder : Builder) : Builder :=
  let builder := { builder with pendingSpace := false }
  let broken := (List.replicate count hardline).foldl (fun builder doc => builder.push doc) builder
  { broken.separate empty with ending := ending }

def newline (builder : Builder) : Builder := builder.hardBreak 1 .newline

/-- Starts a line unless that has just been done. -/
def ensureNewline (builder : Builder) : Builder :=
  if builder.ending == .content then builder.newline else builder

/-- Leaves a blank line, of which a fresh line is half. -/
def leaveParagraph (builder : Builder) : Builder :=
  match builder.ending with
  | .start => builder
  | .newline => builder.hardBreak 1 .paragraph
  | _ => builder.hardBreak 2 .paragraph

/-- Leaves a blank line unless a line has just been started. -/
def preferParagraph (builder : Builder) : Builder :=
  if builder.ending == .content then builder.hardBreak 2 .paragraph else builder

/-- Text that is never wrapped. -/
def writeLiteral (content : List Char) (builder : Builder) : Builder :=
  (builder.hold.write content).release

/-- The break before a command: some commands start a line or a paragraph. -/
def beforeCommand (name : String) (builder : Builder) : Builder :=
  if startsLine name then builder.ensureNewline
  else if startsParagraph name then builder.preferParagraph
  else builder

/-- The opening bracket of arguments. -/
def openArguments (builder : Builder) : Builder :=
  { (builder.resolveSpace ['[']).hold with ending := .content }

/-- The arguments that a nested builder has put together, as one group. -/
def closeArguments (builder inner : Builder) : Builder :=
  let inner :=
    if inner.pendingSpace then { inner.push (text " ") with pendingSpace := false } else inner
  let outer := (builder.resume inner).release
  { outer.push (grouped (concat [text "[", indent inner.finish, text "]"])) with
    ending := .content }

/-- The indented body of a block. -/
def closeBody (builder inner : Builder) : Builder :=
  (builder.resume inner).push (indent inner.finish)

end Builder

/-- A comma that stands alone. -/
def isComma : Node → Bool
  | .string content => content == ","
  | _ => false

/-- The break after a comma, given what follows it in the arguments, and whether
the next node is part of it. White space breaks as a space unless a comment
follows; anything else may be broken off. -/
def afterComma : List Node → Option (Doc × Bool)
  | [] => none
  | .whitespace :: .comment _ _ :: _ => some (softline, false)
  | .whitespace :: _ => some (space, true)
  | _ :: _ => some (softline, false)

mutual

/-- Adds a node. -/
def addNode (builder : Builder) : Node → Builder
  | .list content => addNodes builder content
  | .string content => builder.write content.toList
  | .whitespace => builder.putSpace
  | .parbreak => builder.leaveParagraph
  | .command name args =>
    addArgs ((builder.beforeCommand name).write ('\\' :: name.toList)) args
  | .environment name args body =>
    let opened := builder.ensureNewline.write (openingTag name)
    let inner := addNodes (addArgs opened.nested args).newline body
    (opened.closeBody inner).newline.write (closingTag name)
  | .mathEnvironment name body =>
    let opened := builder.ensureNewline.write (openingTag name)
    let inner := addNodes opened.nested.newline body
    (opened.closeBody inner).newline.write (closingTag name)
  | .inlineMath content => (addNodes (builder.write ['$']) content).write ['$']
  | .displayMath content =>
    let opened := builder.ensureNewline.write ['\\', '[']
    let inner := addNodes opened.nested.newline content
    (opened.closeBody inner).newline.write ['\\', ']']
  | .group content => ((addNodes (builder.hold.write ['{']) content).write ['}']).release
  | .script mark base => addScript builder mark base
  | .verbatim content => builder.ensureNewline.writeLiteral (Node.verbatim content).display
  | .verb delimiter content => builder.writeLiteral (Node.verb delimiter content).display
  | .commentEnvironment content =>
    (builder.ensureNewline.writeLiteral (Node.commentEnvironment content).display).newline
  | .comment content sameline =>
    ((if sameline then builder else builder.ensureNewline).write ('%' :: content.toList)).newline
  | .arguments content =>
    let opened := builder.openArguments
    opened.closeArguments (addItems opened.nested false content)

/-- Adds several nodes, one after the other. -/
def addNodes (builder : Builder) : List Node → Builder
  | [] => builder
  | node :: rest => addNodes (addNode builder node) rest

/-- Adds optional arguments. -/
def addArgs (builder : Builder) : Option (List Node) → Builder
  | none => builder
  | some content =>
    let opened := builder.openArguments
    opened.closeArguments (addItems opened.nested false content)

/-- Adds the nodes of an argument list, with a possible break after each comma
that ends up on its line. The next node is passed over if `skip` says so. -/
def addItems (builder : Builder) (skip : Bool) : List Node → Builder
  | [] => builder
  | node :: rest =>
    if skip then addItems builder false rest
    else
      let added := addNode builder node
      if isComma node && added.ending == .content then
        match afterComma rest with
        | none => addItems added false rest
        | some (doc, skipNext) => addItems (added.push doc) skipNext rest
      else addItems added false rest

/-- Adds a script. -/
def addScript (builder : Builder) (mark : Mark) : Option Node → Builder
  | none => builder.write [mark.char]
  | some base =>
    match base.singleChar? with
    | some c => builder.write [mark.char, c]
    | none =>
      if base.isGroup then addNode (builder.write [mark.char]) base
      else (addNode (builder.write [mark.char, '{']) base).write ['}']

end

/-- The document of a tree. -/
def ofNode (node : Node) : Doc :=
  let builder := addNode {} node
  (if builder.pendingSpace then builder.push (text " ") else builder).finish

end LatexFormatter.Doc
