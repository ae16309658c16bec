import LatexFormatter.Vocabulary

/-
  Documents to be laid out: text with places where a line may end. A group is
  printed on one line if it fits and has all its line breaks otherwise; a fill
  breaks only where the next piece would not fit.
-/

namespace LatexFormatter

/-- A change of indentation. -/
inductive Alignment where
  /-- By a number of columns. -/
  | width (columns : Nat)
  /-- By literal text. -/
  | text (content : String)
  /-- Without the innermost change. -/
  | dedent
  /-- Back to the marked indentation, or to none. -/
  | dedentToRoot
  /-- Marks the current indentation. -/
  | markRoot
  deriving Repr, DecidableEq

/-- A document to be laid out. -/
inductive Doc where
  | text (content : String)
  | concat (parts : List Doc)
  /-- Printed flat if it fits and is not to be broken. If there are further
  states, from the least to the most expanded, they are tried in order. -/
  | group (contents : Doc) (broken : Bool) (states : Option (List Doc))
  /-- Content and separators in turn, filled line by line. -/
  | fill (parts : List Doc)
  | indent (contents : Doc)
  | align (alignment : Alignment) (contents : Doc)
  /-- A space when flat, nothing if it is soft as well; a line break when
  broken or hard. A literal one ignores the indentation. -/
  | line (hard soft literal : Bool)
  | ifBreak (broken flat : Doc)
  /-- Kept back until the line ends. -/
  | lineSuffix (contents : Doc)
  /-- Ends the line if something is kept back. -/
  | lineSuffixBoundary
  /-- Breaks every group around it. -/
  | breakParent
  /-- Removes the blanks at the end of the line. -/
  | trim
  /-- Marks a place in the output. -/
  | cursor
  deriving Repr, Inhabited

namespace Doc

/-- The document without anything in it. -/
def empty : Doc := concat []

mutual

/-- Whether a document is nothing but empty text. -/
def isEmpty : Doc → Bool
  | text content => content.isEmpty
  | concat parts => allEmpty parts
  | _ => false

/-- Whether all of several documents are nothing but empty text. -/
def allEmpty : List Doc → Bool
  | [] => true
  | doc :: rest => isEmpty doc && allEmpty rest

end

/-! ## Composing documents -/

/-- Text given by its characters. -/
def chars (cs : List Char) : Doc := text (String.ofList cs)

/-- A group that may be printed flat. -/
def grouped (contents : Doc) : Doc := group contents false none

/-- The first of several states that fits, or the last one broken. -/
def conditionalGroup (states : List Doc) : Doc := group (states.headD empty) false (some states)

/-- A space, or a line break. -/
def space : Doc := line false false false

/-- Nothing, or a line break. -/
def softline : Doc := line false true false

/-- A line break in any case. -/
def hardline : Doc := concat [line true false false, breakParent]

/-- A line break in any case, after which there is no indentation. -/
def literalline : Doc := concat [line true false true, breakParent]

/-- Documents one after the other, with a separator between any two. -/
def join (separator : Doc) (docs : List Doc) : Doc := concat (docs.intersperse separator)

end Doc

end LatexFormatter
