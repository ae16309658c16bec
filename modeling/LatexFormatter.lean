import LatexFormatter.Check
import LatexFormatter.CommandLine.Disk
import LatexFormatter.Diagnostic
import LatexFormatter.Doc.Basic
import LatexFormatter.Doc.Indentation
import LatexFormatter.Doc.Layout
import LatexFormatter.Doc.OfNode
import LatexFormatter.Ending
import LatexFormatter.Format
import LatexFormatter.Grammar.Document
import LatexFormatter.JsonValue
import LatexFormatter.Main
import LatexFormatter.Node.Display
import LatexFormatter.Node.Equality
import LatexFormatter.Node.Normalize
import LatexFormatter.Node.OfParseTree
import LatexFormatter.Node.Relations
import LatexFormatter.Options
import LatexFormatter.Token.Basic
import LatexFormatter.Token.OfNode
import LatexFormatter.Token.Render
import LatexFormatter.Toml.Document
import LatexFormatter.Proofs.Doc.Builder
import LatexFormatter.Proofs.Printing.Visible
import LatexFormatter.Proofs.Doc.Wide
import LatexFormatter.Proofs.Grammar.Places
import LatexFormatter.Proofs.Grammar.Progress
import LatexFormatter.Proofs.Grammar.Transparency
import LatexFormatter.Proofs.Node.Regular
import LatexFormatter.Proofs.Printing.Agreement
import LatexFormatter.Proofs.Grammar.Lengths
import LatexFormatter.Proofs.Grammar.Spelling
import LatexFormatter.Proofs.Node.Canonical
import LatexFormatter.Proofs.Printing.Outline
import LatexFormatter.Proofs.Printing.RoundTrip
import LatexFormatter.Proofs.Grammar.Derivation
import LatexFormatter.Proofs.Node.WellFormed
import LatexFormatter.Proofs.Node.Substance
import LatexFormatter.Proofs.Printing.Prose
import LatexFormatter.Proofs.Doc.Filling
import LatexFormatter.Proofs.Printing.Wrapping
import LatexFormatter.Proofs.Printing.Stability
import LatexFormatter.Proofs.Doc.WithinWidth
import LatexFormatter.Proofs.Doc.Conservation
import LatexFormatter.Proofs.Printing.Literal
import LatexFormatter.Proofs.Grammar.Delimiters
import LatexFormatter.Proofs.Node.Normal
import LatexFormatter.Proofs.Text.Lines
import LatexFormatter.Proofs.Check
import LatexFormatter.Proofs.CommandLine.Disk
import LatexFormatter.Proofs.CommandLine.Run
import LatexFormatter.Proofs.Node.Editing
import LatexFormatter.Proofs.Node.Walk
import LatexFormatter.Proofs.Node.Everywhere
import LatexFormatter.Proofs.Printing.Trimmed
import LatexFormatter.Proofs.Printing.Trailing
import LatexFormatter.Proofs.Printing.Blanks
import LatexFormatter.Proofs.Node.Respacing
import LatexFormatter.Proofs.Doc.Flat
import LatexFormatter.Proofs.Doc.Grouping
import LatexFormatter.Proofs.Printing.Adjacency
import LatexFormatter.Proofs.Printing.Nesting
import LatexFormatter.Proofs.Grammar.Termination
import LatexFormatter.Proofs.Printing.Printout
import LatexFormatter.Proofs.Printing.Comments
import LatexFormatter.Proofs.Doc.Column
import LatexFormatter.Proofs.Doc.Termination
import LatexFormatter.Proofs.Grammar.Reports
import LatexFormatter.Proofs.Grammar.Unclosed
import LatexFormatter.Proofs.Doc.Strokes
import LatexFormatter.Proofs.Grammar.Suggestions
import LatexFormatter.Proofs.Doc.Margins
import LatexFormatter.Proofs.Doc.ForcedBreaks
import LatexFormatter.Proofs.Text.Spans
import LatexFormatter.Proofs.Doc.Cursors
import LatexFormatter.Proofs.Printing.Bookkeeping
import LatexFormatter.Proofs.Doc.Shape
