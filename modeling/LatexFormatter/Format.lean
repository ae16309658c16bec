import LatexFormatter.Doc.Layout
import LatexFormatter.Doc.OfNode
import LatexFormatter.Grammar.Document
import LatexFormatter.Node.Normalize
import LatexFormatter.Node.OfParseTree
import LatexFormatter.Token.OfNode
import LatexFormatter.Token.Render

/-
  The formatter as a whole: from text to trees, and from trees to text by either
  of the two printers. Options are checked before anything is read.
-/

namespace LatexFormatter

/-- Reads a text into its tree, with all the space it has. -/
def parse (text : String) : Except FormatError Node :=
  match readDocument text with
  | .error error => .error (.outsideGrammar error)
  | .ok tree => (Node.ofParseTree tree).mapError .malformedTree

/-- Reads a text into its tree without excess space. -/
def parseNormalized (text : String) : Except FormatError Node := Node.normalize <$> parse text

/-- What a printer can be given: a text, which is read and normalized first, or a
tree, which is printed as it is. -/
inductive Source where
  | text (content : String)
  | tree (node : Node)

/-- The tree to be printed. -/
def Source.resolve : Source → Except FormatError Node
  | text content => parseNormalized content
  | tree node => .ok node

/-- Prints a tree as a token stream. -/
def printTokens (options : TextOptions) (node : Node) : String :=
  Token.render options (Token.ofNode node)

/-- Prints a tree by the layout engine. -/
def printDoc (options : LayoutOptions) (node : Node) : String :=
  (Doc.render options (Doc.ofNode node)).text

/-- Formats with the token printer. -/
def formatText (options : TextOptions) (source : Source) : Except FormatError String := do
  options.validate.mapError .invalidOptions
  return printTokens options (← source.resolve)

/-- Formats with the layout engine. -/
def formatLayout (options : LayoutOptions) (source : Source) : Except FormatError String := do
  options.validate.mapError .invalidOptions
  return printDoc options (← source.resolve)

end LatexFormatter
