import LatexFormatter.Grammar.Reading
import LatexFormatter.Text.WhiteSpace

/-
  The grammar of the markup, as ordered choices. A rule starts at a cursor and
  either fails or hands on what it read and a cursor further on. Rules for
  nested material do not call themselves: they are given what reads a sequence
  or a single token further ahead (`Ahead`), and `Ahead.within` ties the knot.
  Every nested read starts at least one character further on, so a bound that
  exceeds the length of the remaining text is never reached.

  Correspondence (program ↔ Lean), the rules being methods of `Grammar`:
    `sequence`, `token`                  ↔ `sequence`, `token`
    `special_macro`                      ↔ `opened`
    `text_token_rest`, `math_token_rest` ↔ `textToken`, `mathToken`
    `text_fallback`                      ↔ `word`
    `full_comment`, `comment_body`       ↔ `comment?`, `commentBody`
    `group`, `delimited_math`            ↔ `group`, `delimitedMath`
    `script`                             ↔ `script`, `scriptBase`
    `macro_`, `argument_list`            ↔ `command`, `argumentList`
    `verb`, `verbatim_env`               ↔ `verb?`, `literalEnvironment`
    `begin_tag`, `end_tag`               ↔ `environmentName`, `endTag`
    `math_environment`, `environment`    ↔ `mathEnvironment`, `environment`
    `memoized`                           ↔ `Ahead.retrieve`
  A position in the program is an offset into the whole text; a cursor here
  carries the text that is left, and knows from what it has passed over whether
  it stands where `at_line_start` holds. The recursion of the program is the
  depth that `Ahead.within` counts down.
-/

namespace LatexFormatter

/-- How a sequence reads its tokens: as running text, as math, where blanks
around groups and scripts are dropped, or as an argument list, which a closing
bracket ends. -/
inductive Mode where
  | text
  | math
  | arguments
  deriving Repr, DecidableEq

/-- The readers of what lies further ahead, and how the outcome of a construct is
obtained. -/
structure Ahead where
  retrieve : Retrieval
  sequence : Mode → Option (List Char) → Cursor → StateM Memory (Cursor × List ParseTree)
  token : Mode → Cursor → Reading Found

/-! ## Blanks, words and comments -/

/-- Skips all blanks. -/
def Cursor.skipBlanks (here : Cursor) : Cursor := here.skip (blankLength here.rest)

/-- Reads `n` characters as one string. -/
def Cursor.readText (here : Cursor) (n : Nat) : Found :=
  (here.skip n, .chars (here.rest.take n))

/-- Reads a stretch of `n` blanks, of which there has to be at least one. -/
def Cursor.readBlanks? (here : Cursor) (n : Nat) (kind : RecordKind) : Option Found :=
  if n == 0 then none else some (here.skip n, .bare kind)

/-- A comment from its percent sign to the end of its line. The line ending
belongs to it unless a blank line follows. -/
def commentBody (here : Cursor) (sameline : Bool) : Found :=
  let content := (here.rest.drop 1).takeWhile (!isLineBreak ·)
  let stop := here.skip (content.length + 1)
  let next := if parbreakLength stop.rest == 0 then stop.skip (lineEndingLength stop.rest) else stop
  (next, .record .comment none (some (.chars content)) none sameline none)

/-- A comment on a line of its own, with the blanks before it, or one that
follows other content on its line. -/
def comment? (here : Cursor) : Option Found :=
  let spaces := spaceLength here.rest
  let ending := lineEndingLength (here.rest.drop spaces)
  let ownLine :=
    if ending != 0 then
      some (here.skip (spaces + ending + spaceLength (here.rest.drop (spaces + ending))))
    else if here.fresh then some (here.skip spaces)
    else none
  match ownLine.filter (·.peek == some '%') with
  | some there => some (commentBody there false)
  | none => if here.peek == some '%' then some (commentBody here true) else none

/-- A punctuation character, or as many plain characters as there are. A closing
bracket ends an argument list without being missed. -/
def word (mode : Mode) (here : Cursor) : Reading Found :=
  match here.peek with
  | none => Reading.fail here.offset "text"
  | some c =>
    if c == ']' && mode == .arguments then failure
    else if isPunctuation c then pure (here.readText 1)
    else if isPlain c then pure (here.readText (runLength isPlain here.rest))
    else Reading.fail here.offset "text"

/-! ## Groups, math and scripts -/

/-- Text between braces. The body is text even inside math. -/
def group (ahead : Ahead) (here : Cursor) : Reading Found :=
  if here.peek != some '{' then failure
  else ahead.retrieve here .group do
    let (stop, items) ← ahead.sequence .text (some ['}']) (here.skip 1)
    let next ← Reading.literal ['}'] stop
    return (next, .enclosing .group items)

/-- Math between two delimiters. -/
def delimitedMath (ahead : Ahead) (delimiter : MathDelimiter) (here : Cursor) : Reading Found :=
  if !here.sees delimiter.opening then failure
  else ahead.retrieve here (.math delimiter) do
    let (stop, items) ←
      ahead.sequence .math (some delimiter.closing) (here.skip delimiter.opening.length)
    let next ← Reading.literal delimiter.closing stop
    return (next, .enclosing delimiter.kind items)

/-- The mark of a subscript or superscript. -/
def scriptKind? : Char → Option RecordKind
  | '^' => some .superscript
  | '_' => some .subscript
  | _ => none

/-- The base of a script: one math token after optional blanks. There is none at
the end of the text or before something that closes the surroundings. A group
keeps the blanks after it. -/
def scriptBase (ahead : Ahead) (here : Cursor) : Reading Found :=
  match here.peek with
  | none => failure
  | some c =>
    if c == '}' || c == '$' then failure
    else if c == '{' then group ahead here
    else ahead.token .math here

/-- A subscript or superscript. Without a base it is the mark alone. -/
def script (ahead : Ahead) (here : Cursor) : Reading Found :=
  match here.peek.bind scriptKind? with
  | none => failure
  | some kind => do
    let after := here.skip 1
    let base ← (some <$> scriptBase ahead after.skipBlanks) <|> pure none
    match base with
    | some (next, content) => return (next, .record kind none (some content) none false none)
    | none => return (after, .bare kind)

/-! ## Commands and environments -/

/-- Arguments in brackets, after at most one line ending. -/
def argumentList (ahead : Ahead) (here : Cursor) : Reading Found :=
  let there := here.skip (whitespaceLength here.rest)
  if there.peek != some '[' then failure
  else ahead.retrieve there .arguments do
    let (stop, items) ← ahead.sequence .arguments (some [']']) (there.skip 1)
    let next ← Reading.literal [']'] stop
    return (next, .enclosing .arguments items)

/-- Arguments in brackets, if there are any, and where they end. -/
def optionalArguments (ahead : Ahead) (here : Cursor) : Reading (Cursor × Option ParseTree) :=
  ((fun (next, args) => (next, some args)) <$> argumentList ahead here) <|> pure (here, none)

/-- How many characters the name of a command has: its letters, or a single
character of any other kind. Zero at the end of the text. -/
def commandNameLength : List Char → Nat
  | [] => 0
  | c :: cs => if isLetter c then runLength isLetter (c :: cs) else 1

/-- A command with its optional arguments. The commands that open and close
environments are none. -/
def command (ahead : Ahead) (here : Cursor) : Reading Found :=
  if here.peek != some '\\' then failure
  else do
    let start := here.skip 1
    let length := commandNameLength start.rest
    if length == 0 then Reading.fail start.offset "macro name"
    let name := String.ofList (start.rest.take length)
    if name == "begin" || name == "end" then failure
    let (next, args) ← optionalArguments ahead (start.skip length)
    return (next, .record .command (some name) none args false none)

/-- Literal text between two equal characters that are neither letters nor white
space. -/
def verb? (here : Cursor) : Option Found :=
  if !here.sees ['\\', 'v', 'e', 'r', 'b'] then none
  else match here.rest.drop 5 with
    | [] => none
    | delimiter :: body =>
      if isLetter delimiter || Text.isWhiteSpace delimiter then none
      else (distanceTo? [delimiter] body).map fun length =>
        (here.skip (5 + 1 + length + 1),
          .record .verb none (some (.chars (body.take length))) none false (some delimiter))

/-- The characters that open an environment. -/
def beginTag (name : List Char) : List Char :=
  ['\\', 'b', 'e', 'g', 'i', 'n', '{'] ++ name ++ ['}']

/-- The characters that close an environment. -/
def endTag (name : List Char) : List Char :=
  ['\\', 'e', 'n', 'd', '{'] ++ name ++ ['}']

/-- An environment whose body is kept as it is. A block comment takes the line
ending after it along. -/
def literalEnvironment (name : String) (kind : RecordKind) (here : Cursor) : Reading Found :=
  let opening := beginTag name.toList
  let closing := endTag name.toList
  if !here.sees opening then failure
  else
    let body := here.rest.drop opening.length
    match distanceTo? closing body with
    | none => Reading.fail here.finalOffset (String.ofList (Text.quotedChars closing))
    | some length =>
      let stop := here.skip (opening.length + length + closing.length)
      let next :=
        if kind == .commentEnvironment then stop.skip (lineEndingLength stop.rest) else stop
      pure (next, .literal kind (body.take length))

/-- Whether the command that opens an environment comes next. -/
def seesBegin (here : Cursor) : Bool := here.sees ['\\', 'b', 'e', 'g', 'i', 'n']

/-- The opening of an environment after its command: the name in braces. -/
def environmentName (here : Cursor) : Reading (Cursor × List Char) := do
  let opened ← Reading.literal ['{'] (here.skip 6)
  let name := opened.rest.takeWhile fun c => c != '}' && c != '{'
  let next ← Reading.literal ['}'] (opened.skip name.length)
  return (next, name)

/-- One of the environments whose body is math. -/
def mathEnvironment (ahead : Ahead) (here : Cursor) : Reading Found :=
  if !seesBegin here then failure
  else ahead.retrieve here .mathEnvironment do
    let (opened, name) ← environmentName here
    if !isMathEnvironment (String.ofList name) then failure
    let (stop, items) ← ahead.sequence .math (some (endTag name)) opened
    let next ← Reading.literal (endTag name) stop
    return (next, .record .mathEnvironment (some (String.ofList name)) (some (.list items))
      none false none)

/-- Any other environment, with its optional arguments. -/
def environment (ahead : Ahead) (here : Cursor) : Reading Found :=
  if !seesBegin here then failure
  else ahead.retrieve here .environment do
    let (opened, name) ← environmentName here
    let (start, args) ← optionalArguments ahead opened
    let (stop, items) ← ahead.sequence .text (some (endTag name)) start
    let next ← Reading.literal (endTag name) stop
    return (next, .record .environment (some (String.ofList name)) (some (.list items))
      args false none)

/-- The constructs that a dollar sign or a backslash may open, in the order in
which they are tried. -/
def opened (ahead : Ahead) (here : Cursor) : Reading Found :=
  match here.peek with
  | some '$' => delimitedMath ahead .dollars here
  | some '\\' =>
    Reading.ofOption (verb? here)
      <|> literalEnvironment verbatimName .verbatim here
      <|> literalEnvironment commentName .commentEnvironment here
      <|> delimitedMath ahead .brackets here
      <|> delimitedMath ahead .parentheses here
      <|> mathEnvironment ahead here
      <|> environment ahead here
  | _ => failure

/-! ## Tokens and sequences -/

/-- A token of running text that no backslash or comment begins. -/
def textToken (ahead : Ahead) (mode : Mode) (here : Cursor) : Reading Found :=
  group ahead here
    <|> delimitedMath ahead .dollar here
    <|> match here.peek with
      | none => failure
      | some c =>
        if c == '&' || c == '#' then pure (here.readText 1)
        else
          Reading.ofOption (here.readBlanks? (parbreakLength here.rest) .parbreak)
            <|> script ahead here
            <|> (let length := numberLength here.rest
                if length == 0 then failure else pure (here.readText length))
            <|> Reading.ofOption (here.readBlanks? (whitespaceLength here.rest) .whitespace)
            <|> word mode here

/-- Characters that a single math token cannot be. -/
def endsMath (c : Char) : Bool := c == '$' || c == '{' || c == '}' || c == '\\' || c == '%'

/-- A single character of math. -/
def mathChar (here : Cursor) : Reading Found :=
  match here.peek with
  | none => Reading.fail here.offset "math token"
  | some c =>
    if endsMath c then Reading.fail here.offset "math token" else pure (here.readText 1)

/-- A token of math that no backslash or comment begins. Blanks around groups and
alignment marks, and before scripts, are dropped. -/
def mathToken (ahead : Ahead) (here : Cursor) : Reading Found :=
  let inner := here.skipBlanks
  ((fun (next, content) => (next.skipBlanks, content)) <$> group ahead inner)
    <|> match inner.peek with
      | some '&' => pure ((inner.skip 1).skipBlanks, .text "&")
      | some '#' => pure ((inner.skip 1).skipBlanks, .text "#")
      | some '^' => script ahead inner
      | some '_' => script ahead inner
      | _ =>
        Reading.ofOption (here.readBlanks? (whitespaceLength here.rest) .whitespace)
          <|> mathChar here

/-- One token. -/
def token (ahead : Ahead) (mode : Mode) (here : Cursor) : Reading Found :=
  opened ahead here
    <|> command ahead here
    <|> Reading.ofOption (comment? here)
    <|> match mode with
      | .math => mathToken ahead here
      | .text => textToken ahead .text here
      | .arguments => textToken ahead .arguments here

/-- Whether the sequence ends here. -/
def stopsAt (stop : Option (List Char)) (here : Cursor) : Bool :=
  match stop with
  | none => false
  | some closing => here.sees closing

/-- Tokens up to what closes the sequence, the end of the text, or the first
place where no token can be read. Null characters are dropped. -/
def sequence (ahead : Ahead) (mode : Mode) (stop : Option (List Char)) (here : Cursor) :
    StateM Memory (Cursor × List ParseTree) :=
  match here.peek with
  | none => pure (here, [])
  | some c =>
    if stopsAt stop here then pure (here, [])
    else if c == '\x00' then ahead.sequence mode stop (here.skip 1)
    else do
      match ← (token ahead mode here).run with
      | none => pure (here, [])
      | some (next, item) =>
        let (last, items) ← ahead.sequence mode stop next
        pure (last, item :: items)

/-! ## The knot -/

/-- Readers that read nothing. -/
def Ahead.nothing (retrieve : Retrieval) : Ahead where
  retrieve := retrieve
  sequence _ _ here := pure (here, [])
  token _ _ := failure

/-- Readers one character deeper than the given ones. -/
def Ahead.deeper (ahead : Ahead) : Ahead where
  retrieve := ahead.retrieve
  sequence := LatexFormatter.sequence ahead
  token := LatexFormatter.token ahead

/-- Readers for everything that starts within the given number of characters of
the end of the text. -/
def Ahead.within (retrieve : Retrieval) : Nat → Ahead
  | 0 => Ahead.nothing retrieve
  | n + 1 => (Ahead.within retrieve n).deeper

end LatexFormatter
