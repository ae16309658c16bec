import LatexFormatter.Ending
import LatexFormatter.Options
import LatexFormatter.Token.Basic

/-
  Laying out a token stream in one pass, with greedy wrapping: a piece of text
  that would cross the right margin goes to a new line if a space stands before
  it. Trailing blanks go when their line ends, and repeated breaks collapse.

  The length of a line is a word of 64 bits, and every number that becomes one
  is cut to it: the margin of a new line, the length after a space or a text, and
  the length that a text would reach (`unsignedWord`). How deep the indentation
  is, and how many constructs forbid wrapping, are natural numbers: each costs a
  token, so neither outgrows the stream.

  Correspondence (program ↔ Lean):
    `Renderer`, `Last`      ↔ `Page`, `Ending`
    `Renderer::break_lines` ↔ `Page.breakLines`
    `Renderer::paragraph`   ↔ `Page.leaveParagraph`
    `Renderer::text`        ↔ `Page.write`, with `Page.wraps` and `Page.put`
    `Renderer::token`       ↔ `Page.step`
    `render_tokens_with`    ↔ `layOut`, `render`
  The output is kept last character first, so that its end is at hand.
-/

namespace LatexFormatter.Token

/-- A page being written. -/
structure Page where
  /-- What has been written, last character first. -/
  out : List Char := []
  /-- How many tabs a new line starts with. -/
  indent : Nat := 0
  /-- How many constructs that forbid wrapping are open. -/
  noWrap : Nat := 0
  /-- The width of the current line, a tab of its indentation counting as many
  columns as the options say. -/
  lineLength : Nat := 0
  /-- Whether anything but indentation stands on the current line. -/
  hasContent : Bool := false
  ending : Ending := .start
  deriving Repr, DecidableEq

namespace Page

/-- Ends the current line and starts another, `count` lines further down. -/
def breakLines (options : TextOptions) (count : Nat) (page : Page) : Page :=
  let out := List.replicate page.indent '\t' ++ List.replicate count '\n'
    ++ page.out.dropWhile isSpace
  { page with
    out
    lineLength := unsignedWord (page.indent * options.tabWidth) out.length
    hasContent := false }

/-- Leaves a blank line, of which a fresh line is half. At the start there is
nothing to leave. -/
def leaveParagraph (options : TextOptions) (page : Page) : Page :=
  match page.ending with
  | .start => page
  | .newline => page.breakLines options 1
  | _ => page.breakLines options 2

/-- The width of the current line with a piece of text more on it. -/
def lengthWith (content : List Char) (page : Page) : Nat :=
  unsignedWord (page.lineLength + content.length) (page.out.length + content.length)

/-- Whether a piece of text goes to a new line. -/
def wraps (options : TextOptions) (page : Page) (content : List Char) : Bool :=
  page.noWrap == 0 && page.hasContent
    && options.maxWidth < page.lengthWith content
    && page.out.head? == some ' ' && isWrappable content

/-- Writes a piece of text on the current line. -/
def put (content : List Char) (page : Page) : Page :=
  { page with
    out := content.reverse ++ page.out
    lineLength :=
      if content.contains '\n' then (content.reverse.takeWhile (· != '\n')).length
      else page.lengthWith content
    hasContent := true
    ending := .content }

/-- Writes a piece of text, on a new line if it has to. -/
def write (options : TextOptions) (content : List Char) (page : Page) : Page :=
  if page.wraps options content then (page.breakLines options 1).put content
  else page.put content

/-- Carries out one token. -/
def step (options : TextOptions) (page : Page) : Token → Page
  | text content => page.write options content.toList
  | space =>
    if page.hasContent then
      { page with
        out := ' ' :: page.out, lineLength := page.lengthWith [' '], ending := .content }
    else page
  | .indent => { page with indent := page.indent + 1 }
  | endIndent => { page with indent := page.indent - 1 }
  | .noWrap => { page with noWrap := page.noWrap + 1 }
  | endNoWrap => { page with noWrap := page.noWrap - 1 }
  | newline => { page.breakLines options 1 with ending := .newline }
  | ensureNewline =>
    if page.ending == .content then { page.breakLines options 1 with ending := .newline }
    else page
  | paragraphBreak =>
    if page.ending == .start then page
    else { page.leaveParagraph options with ending := .paragraph }
  | preferParagraph =>
    if page.ending == .content then { page.breakLines options 2 with ending := .paragraph }
    else page
  | ensureParagraph =>
    if page.ending == .content || page.ending == .newline then
      { page.leaveParagraph options with ending := .paragraph }
    else page

end Page

/-- The page that a token stream is laid out on. -/
def layOut (options : TextOptions) (tokens : List Token) : Page :=
  tokens.foldl (Page.step options) {}

/-- The text of a token stream. -/
def render (options : TextOptions) (tokens : List Token) : String :=
  String.ofList (layOut options tokens).out.reverse

end LatexFormatter.Token
