import LatexFormatter.Text.Quoted

/-
  The elements of the token stream: pieces of text, and directives that say how
  they are laid out.
-/

namespace LatexFormatter

/-- A piece of text or a layout directive. -/
inductive Token where
  | text (content : String)
  /-- One level of indentation more, from the next line on. -/
  | indent
  /-- One level of indentation less. -/
  | endIndent
  /-- No wrapping up to the matching end. -/
  | noWrap
  | endNoWrap
  | newline
  /-- A new line unless one has just been started. -/
  | ensureNewline
  /-- A blank line unless one has just been left. -/
  | ensureParagraph
  /-- A blank line unless a line has just been started. -/
  | preferParagraph
  | paragraphBreak
  | space
  deriving Repr, DecidableEq

namespace Token

/-- The directives, each with the name it goes by. -/
def directives : List (Token × String) :=
  [(indent, "indent"), (endIndent, "end-indent"), (noWrap, "no-wrap"),
    (endNoWrap, "end-no-wrap"), (newline, "newline"), (ensureNewline, "ensure-newline"),
    (ensureParagraph, "ensure-paragraph"), (preferParagraph, "prefer-paragraph"),
    (paragraphBreak, "paragraph-break"), (space, "space")]

/-- The name of a directive. -/
def name? (token : Token) : Option String := directives.lookup token

/-- The directive of a name. -/
def ofName? (name : String) : Option Token :=
  (directives.find? (·.2 == name)).map (·.1)

/-- A token on a line of its own: text in quotes, a directive by name. -/
def display : Token → String
  | text content => Text.quoted content
  | token => token.name?.getD ""

end Token

end LatexFormatter
