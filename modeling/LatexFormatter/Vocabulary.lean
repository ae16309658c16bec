/-
  The fixed vocabulary of the formatter: the character classes the grammar and
  the printers look at, and the names of environments and commands that they
  treat specially. Every list here is closed; a name or a character outside it
  is ordinary.
-/

namespace LatexFormatter

/-! ## Character classes -/

/-- A blank that stays on its line. -/
def isSpace (c : Char) : Bool := c == ' ' || c == '\t'

/-- A character that ends a line, alone or as half of a carriage return and
line feed pair. -/
def isLineBreak (c : Char) : Bool := c == '\n' || c == '\r'

/-- A blank of either kind. -/
def isBlank (c : Char) : Bool := isSpace c || isLineBreak c

/-- A letter of a named command; only the ASCII letters are. -/
def isLetter (c : Char) : Bool := c.isAlpha

/-- An ASCII digit. -/
def isDigit (c : Char) : Bool := c.isDigit

/-- Characters that are each a string of their own in running text. -/
def punctuation : List Char :=
  ['.', ',', ';', ':', '-', '*', '/', '(', ')', '!', '?', '=', '+', '<', '>', '[', ']']

/-- Characters with a meaning of their own, which end a run of plain text. -/
def specialChars : List Char :=
  ['\\', '%', '{', '}', '$', '&', '#', '^', '_', '\x00', ' ', '\t', '\n', '\r']

/-- Characters that a wrapped line never begins with. -/
def noWrapLeading : List Char :=
  ['.', ',', '/', '#', '!', '$', '%', '^', '&', '*', ';', ':', '{', '}', '=', '-', '_', '\\',
    '~', '(', ')']

def isPunctuation (c : Char) : Bool := punctuation.contains c

def isSpecial (c : Char) : Bool := specialChars.contains c

/-- A character that may stand inside a run of plain text. -/
def isPlain (c : Char) : Bool := !isSpecial c && !isPunctuation c

/-- Whether a line may be broken before this text. Empty text never starts a
line. -/
def isWrappable : List Char → Bool
  | [] => false
  | c :: _ => !noWrapLeading.contains c

/-! ## Names -/

/-- Environments whose body is read as math. Any other environment is read as
text, whatever it holds. -/
def mathEnvironments : List String :=
  ["equation", "equation*", "align", "align*", "alignat", "alignat*", "gather", "gather*",
    "multline", "multline*", "flalign", "flalign*", "split", "math", "displaymath"]

def isMathEnvironment (name : String) : Bool := mathEnvironments.contains name

/-- The environment whose body is kept character for character. -/
def verbatimName : String := "verbatim"

/-- The environment whose body is a block comment. -/
def commentName : String := "comment"

/-- Commands that always start on a fresh line. -/
def lineStartCommands : List String := ["usepackage", "newcommand"]

/-- Commands that prefer to start a paragraph. -/
def paragraphCommands : List String := ["item"]

def startsLine (name : String) : Bool := lineStartCommands.contains name

def startsParagraph (name : String) : Bool := paragraphCommands.contains name

end LatexFormatter
