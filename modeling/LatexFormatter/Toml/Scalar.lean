import LatexFormatter.Toml.Number

/-
  The scalars of TOML: keys, strings, booleans, dates and times, and numbers
  among them. Each reader takes what it recognises off the front of the text and
  hands on the rest, or fails.
-/

namespace LatexFormatter.Toml

/-- Control characters other than the tab, which stand nowhere but at the end of
a line. -/
def isControl (c : Char) : Bool := (c.toNat < 0x20 && c != '\t') || c.toNat == 0x7f

/-- The text after a line ending, if one comes next. -/
def afterNewline? : List Char → Option (List Char)
  | '\n' :: rest => some rest
  | '\r' :: '\n' :: rest => some rest
  | _ => none

/-! ## Strings -/

/-- The character that a number in a string stands for. Surrogates stand for
none. -/
def scalar? (hex : List Char) : Option Char := do
  if hex.contains '_' then none
  else
    let n ← digits? 16 hex
    if n < 0xd800 || (0xdfff < n && n < 0x110000) then some (Char.ofNat n) else none

/-- The character that a backslash and a letter stand for. -/
def escape? : Char → Option Char
  | 'b' => some '\x08'
  | 't' => some '\t'
  | 'n' => some '\n'
  | 'f' => some '\x0c'
  | 'r' => some '\r'
  | '"' => some '"'
  | '\\' => some '\\'
  | _ => none

/-- Puts a character in front of what is read next. -/
def readCons (c : Char) (read : Option (List Char × List Char)) : Option (List Char × List Char) :=
  read.map fun (cs, rest) => (c :: cs, rest)

/-- The rest of a string in double quotes. -/
def basicString : List Char → Option (List Char × List Char)
  | [] => none
  | '"' :: rest => some ([], rest)
  | '\\' :: 'u' :: a :: b :: c :: d :: rest => do
    readCons (← scalar? [a, b, c, d]) (basicString rest)
  | '\\' :: 'U' :: a :: b :: c :: d :: e :: f :: g :: h :: rest => do
    readCons (← scalar? [a, b, c, d, e, f, g, h]) (basicString rest)
  | '\\' :: c :: rest => do readCons (← escape? c) (basicString rest)
  | c :: rest => if isControl c || c == '\\' then none else readCons c (basicString rest)

/-- The rest of a string in single quotes. -/
def literalString : List Char → Option (List Char × List Char)
  | [] => none
  | '\x27' :: rest => some ([], rest)
  | c :: rest => if isControl c then none else readCons c (literalString rest)

/-- Whether a line ends after nothing but spaces. -/
def endsLine (cs : List Char) : Bool := (afterNewline? (cs.dropWhile isSpace)).isSome

/-- The rest of a string in three double quotes. Blanks are passed over after a
backslash at the end of a line (`skip`). Up to two quotes may stand before the
closing ones. -/
def longBasicString (skip : Bool) : List Char → Option (List Char × List Char)
  | [] => none
  | '"' :: '"' :: '"' :: '"' :: '"' :: rest => some (['"', '"'], rest)
  | '"' :: '"' :: '"' :: '"' :: rest => some (['"'], rest)
  | '"' :: '"' :: '"' :: rest => some ([], rest)
  | '\\' :: 'u' :: a :: b :: c :: d :: rest => do
    readCons (← scalar? [a, b, c, d]) (longBasicString false rest)
  | '\\' :: 'U' :: a :: b :: c :: d :: e :: f :: g :: h :: rest => do
    readCons (← scalar? [a, b, c, d, e, f, g, h]) (longBasicString false rest)
  | '\\' :: c :: rest =>
    if endsLine (c :: rest) then longBasicString true (c :: rest)
    else do readCons (← escape? c) (longBasicString false rest)
  | '\r' :: '\n' :: rest =>
    if skip then longBasicString true rest else readCons '\n' (longBasicString false rest)
  | '\n' :: rest =>
    if skip then longBasicString true rest else readCons '\n' (longBasicString false rest)
  | c :: rest =>
    if skip && isSpace c then longBasicString true rest
    else if isControl c || c == '\\' then none
    else readCons c (longBasicString false rest)

/-- The rest of a string in three single quotes. -/
def longLiteralString : List Char → Option (List Char × List Char)
  | [] => none
  | '\x27' :: '\x27' :: '\x27' :: '\x27' :: '\x27' :: rest => some (['\x27', '\x27'], rest)
  | '\x27' :: '\x27' :: '\x27' :: '\x27' :: rest => some (['\x27'], rest)
  | '\x27' :: '\x27' :: '\x27' :: rest => some ([], rest)
  | '\r' :: '\n' :: rest => readCons '\n' (longLiteralString rest)
  | '\n' :: rest => readCons '\n' (longLiteralString rest)
  | c :: rest => if isControl c then none else readCons c (longLiteralString rest)

/-- A line ending directly after three opening quotes is no part of the
string. -/
def skipNewline (cs : List Char) : List Char := (afterNewline? cs).getD cs

/-- A string of any of the four kinds. -/
def string? : List Char → Option (List Char × List Char)
  | '"' :: '"' :: '"' :: rest => longBasicString false (skipNewline rest)
  | '\x27' :: '\x27' :: '\x27' :: rest => longLiteralString (skipNewline rest)
  | '"' :: rest => basicString rest
  | '\x27' :: rest => literalString rest
  | _ => none

/-! ## Keys -/

def isBareKeyChar (c : Char) : Bool := c.isAlphanum || c == '_' || c == '-'

/-- One part of a key: bare, or in quotes on one line. -/
def keyPart? : List Char → Option (List Char × List Char)
  | '"' :: rest => basicString rest
  | '\x27' :: rest => literalString rest
  | cs =>
    let part := cs.takeWhile isBareKeyChar
    if part.isEmpty then none else some (part, cs.drop part.length)

/-- How many parts a key may have, and how deep values may lie within each
other. -/
def nestingLimit : Nat := 79

/-- A key: parts with points between them, of which there are at most
`limit`. -/
def keyWithin? : Nat → List Char → Option (List String × List Char)
  | 0, _ => none
  | limit + 1, cs => do
    let (part, rest) ← keyPart? (cs.dropWhile isSpace)
    match rest.dropWhile isSpace with
    | '.' :: more =>
      let (parts, rest) ← keyWithin? limit more
      return (String.ofList part :: parts, rest)
    | rest => return ([String.ofList part], rest)

/-- A key. -/
def key? (cs : List Char) : Option (List String × List Char) := keyWithin? nestingLimit cs

/-! ## Dates and times -/

/-- The number of days in a month. -/
def daysIn (year month : Nat) : Nat :=
  if month == 2 then
    if year % 4 == 0 && (year % 100 != 0 || year % 400 == 0) then 29 else 28
  else if month == 4 || month == 6 || month == 9 || month == 11 then 30
  else 31

/-- Whether the text is a date: year, month and day. -/
def isDate (cs : List Char) : Bool :=
  match fixedDigits? 4 (cs.take 4), fixedDigits? 2 ((cs.drop 5).take 2),
      fixedDigits? 2 (cs.drop 8) with
  | some year, some month, some day =>
    cs[4]? == some '-' && cs[7]? == some '-' && 1 ≤ month && month ≤ 12
      && 1 ≤ day && day ≤ daysIn year month
  | _, _, _ => false

/-- Whether the text is a time of day: hours, minutes and seconds, possibly with
a fraction. -/
def isTime (cs : List Char) : Bool :=
  match fixedDigits? 2 (cs.take 2), fixedDigits? 2 ((cs.drop 3).take 2),
      fixedDigits? 2 ((cs.drop 6).take 2) with
  | some hour, some minute, some second =>
    cs[2]? == some ':' && cs[5]? == some ':' && hour < 24 && minute < 60 && second ≤ 60
      && (match cs.drop 8 with
        | [] => true
        | '.' :: fraction => !fraction.isEmpty && fraction.all isDigit
        | _ => false)
  | _, _, _ => false

/-- Whether the text is a distance from universal time. -/
def isZone (cs : List Char) : Bool :=
  match cs with
  | ['Z'] => true
  | ['z'] => true
  | sign :: rest =>
    match fixedDigits? 2 (rest.take 2), fixedDigits? 2 (rest.drop 3) with
    | some hour, some minute =>
      (sign == '+' || sign == '-') && rest[2]? == some ':' && hour < 24 && minute < 60
    | _, _ => false
  | [] => false

/-- Whether the text is a date, a time, or both, possibly with a zone. -/
def isDateTime (cs : List Char) : Bool :=
  let date := cs.take 10
  let rest := cs.drop 11
  let time := rest.takeWhile fun c => c.isDigit || c == ':' || c == '.'
  let zone := rest.drop time.length
  isDate cs || isTime cs
    || (isDate date && (cs[10]? == some 'T' || cs[10]? == some 't' || cs[10]? == some ' ')
      && isTime time && (zone.isEmpty || isZone zone))

/-! ## Scalars that are no strings -/

def isScalarChar (c : Char) : Bool :=
  c.isAlphanum || c == '+' || c == '-' || c == '_' || c == '.' || c == ':'

/-- The characters of a scalar. A single space may stand between a date and a
time. -/
def scalarText (cs : List Char) : List Char :=
  let first := cs.takeWhile isScalarChar
  match cs.drop first.length with
  | ' ' :: c :: rest =>
    if isDate first && c.isDigit then first ++ ' ' :: (c :: rest).takeWhile isScalarChar
    else first
  | _ => first

/-- What the characters of a scalar mean. -/
def scalarValue? (cs : List Char) : Option Setting :=
  if cs == ['t', 'r', 'u', 'e'] then some (.boolean true)
  else if cs == ['f', 'a', 'l', 's', 'e'] then some (.boolean false)
  else match integer? cs with
    | some n => some (.integer n)
    | none => if isFloat cs || isDateTime cs then some .other else none

end LatexFormatter.Toml
