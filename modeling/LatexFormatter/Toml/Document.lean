import LatexFormatter.Toml.Scalar

/-
  TOML documents. A document is a sequence of lines that define keys and open
  tables; no key and no table may be defined twice. While it is read, each table
  remembers how it came about, because that decides what may still be added to
  it; in the settings that the document amounts to this no longer matters.
-/

namespace LatexFormatter.Toml

/-! ## Tables -/

/-- How a table came about: on the way to another, by its own heading, or by a
key with points. -/
inductive TableKind where
  | passedThrough
  | headed
  | dotted
  deriving Repr, DecidableEq

/-- What a key stands for. -/
inductive Entry where
  | value (setting : Setting)
  | table (kind : TableKind) (entries : List (String × Entry))
  /-- Tables under one heading, the last one first. -/
  | tables (elements : List (List (String × Entry)))

abbrev Entries := List (String × Entry)

mutual

/-- What an entry is as a setting. -/
def Entry.setting : Entry → Setting
  | .value setting => setting
  | .table _ entries => .table (settingsOf entries)
  | .tables elements => .list (tableSettings elements).reverse

/-- What the entries of a table are as settings. -/
def settingsOf : List (String × Entry) → Settings
  | [] => []
  | entry :: entries => namedSetting entry :: settingsOf entries

/-- What an entry with its key is as a setting. -/
def namedSetting : String × Entry → String × Setting
  | (key, entry) => (key, entry.setting)

/-- What each of several tables is as a setting. -/
def tableSettings : List (List (String × Entry)) → List Setting
  | [] => []
  | entries :: rest => .table (settingsOf entries) :: tableSettings rest

end

/-- Sets what a key stands for. -/
def Entries.put (key : String) (entry : Entry) : Entries → Entries
  | [] => [(key, entry)]
  | (other, old) :: rest =>
    if other == key then (key, entry) :: rest else (other, old) :: Entries.put key entry rest

/-- Changes the table at a path, making the tables on the way that do not exist.
A key with points (`dotted`) does not lead into a table with a heading of its
own. -/
def descend (dotted : Bool) (change : TableKind → Entries → Option Entries) :
    List String → TableKind → Entries → Option Entries
  | [], kind, entries => change kind entries
  | key :: path, _, entries =>
    match entries.lookup key with
    | none => do
      let kind : TableKind := if dotted then .dotted else .passedThrough
      return Entries.put key (.table kind (← descend dotted change path kind [])) entries
    | some (.value _) => none
    | some (.table kind inner) =>
      if dotted && kind == .headed then none
      else do return Entries.put key (.table kind (← descend dotted change path kind inner)) entries
    | some (.tables []) => none
    | some (.tables (last :: before)) => do
      let last ← descend dotted change path .headed last
      return Entries.put key (.tables (last :: before)) entries

/-- Defines a key in a table. A key without points belongs to the table itself,
one with points to a table that only such keys have made. -/
def define (key : List String) (setting : Setting) (kind : TableKind) (entries : Entries) :
    Option Entries :=
  let path := key.dropLast
  let name := key.getLastD ""
  descend true (fun reached inner =>
    if (reached == .dotted) == path.isEmpty || (inner.lookup name).isSome then none
    else some (inner ++ [(name, .value setting)])) path kind entries

/-- Opens a table by its heading. It may have been passed through before, but not
opened. -/
def openTable (key : List String) (entries : Entries) : Option Entries :=
  let name := key.getLastD ""
  descend false (fun _ inner =>
    match inner.lookup name with
    | none => some (inner ++ [(name, .table .headed [])])
    | some (.table .passedThrough old) => some (Entries.put name (.table .headed old) inner)
    | _ => none) key.dropLast .headed entries

/-- Opens one more of several tables by their heading. -/
def openElement (key : List String) (entries : Entries) : Option Entries :=
  let name := key.getLastD ""
  descend false (fun _ inner =>
    match inner.lookup name with
    | none => some (inner ++ [(name, .tables [[]])])
    | some (.tables elements) => some (Entries.put name (.tables ([] :: elements)) inner)
    | _ => none) key.dropLast .headed entries

/-! ## Values -/

def skipSpaces (cs : List Char) : List Char := cs.dropWhile isSpace

/-- The text after a comment, which is free of control characters. -/
def afterComment? (cs : List Char) : Option (List Char) :=
  let rest := cs.dropWhile fun c => !isControl c
  if rest.isEmpty || (afterNewline? rest).isSome then some rest else none

/-- The text after blanks, comments and line endings, of which there are at most
`bound`. -/
def skipLines : Nat → List Char → Option (List Char)
  | 0, cs => some cs
  | bound + 1, cs =>
    match skipSpaces cs with
    | '#' :: rest => do skipLines bound (← afterComment? rest)
    | rest =>
      match afterNewline? rest with
      | some rest => skipLines bound rest
      | none => some rest

/-- What has been read of a string, as a value. -/
def readText : List Char × List Char → Setting × List Char
  | (content, rest) => (.text (String.ofList content), rest)

mutual

/-- A value, within which others may lie up to the given depth. Recursion is
bounded by a number that exceeds the length of the text. -/
def value? (depth : Nat) : Nat → List Char → Option (Setting × List Char)
  | 0, _ => none
  | bound + 1, cs =>
    match cs, depth with
    | '"' :: _, _ => (string? cs).map readText
    | '\x27' :: _, _ => (string? cs).map readText
    | '[' :: _, 0 => none
    | '[' :: rest, depth + 1 => do
      let (items, rest) ← items? depth bound rest
      return (.list items, rest)
    | '{' :: _, 0 => none
    | '{' :: rest, depth + 1 =>
      match skipSpaces rest with
      | '}' :: rest => some (.table [], rest)
      | rest => do
        let (entries, rest) ← members? depth bound [] rest
        return (.table (settingsOf entries), rest)
    | _, _ => do
      let content := scalarText cs
      return (← scalarValue? content, cs.drop content.length)

/-- The items of an array up to its end, which a comma may precede. -/
def items? (depth : Nat) : Nat → List Char → Option (List Setting × List Char)
  | 0, _ => none
  | bound + 1, cs => do
    match ← skipLines cs.length cs with
    | ']' :: rest => return ([], rest)
    | start =>
      let (item, rest) ← value? depth bound start
      match ← skipLines rest.length rest with
      | ']' :: rest => return ([item], rest)
      | ',' :: rest =>
        let (items, rest) ← items? depth bound rest
        return (item :: items, rest)
      | _ => none

/-- The members of a table in braces up to its end, after those that have been
read. -/
def members? (depth : Nat) : Nat → Entries → List Char → Option (Entries × List Char)
  | 0, _, _ => none
  | bound + 1, entries, cs => do
    let (key, rest) ← key? cs
    match rest with
    | '=' :: rest =>
      let (setting, rest) ← value? depth bound (skipSpaces rest)
      let entries ← define key setting .headed entries
      match skipSpaces rest with
      | '}' :: rest => return (entries, rest)
      | ',' :: rest => members? depth bound entries rest
      | _ => none
    | _ => none

end

/-! ## Documents -/

/-- What has been read of a document: its entries, and the path of the table that
keys are defined in. -/
structure Document where
  entries : Entries := []
  current : List String := []

/-- The text after the end of a line, before which there may be a comment. -/
def endLine? (cs : List Char) : Option (List Char) :=
  match skipSpaces cs with
  | [] => some []
  | '#' :: rest => (afterComment? rest).map skipNewline
  | rest => afterNewline? rest

/-- One line that defines a key or opens a table. -/
def line? (document : Document) (cs : List Char) : Option (Document × List Char) := do
  match cs with
  | '[' :: '[' :: rest =>
    let (key, rest) ← key? rest
    match rest with
    | ']' :: ']' :: rest =>
      return (⟨← openElement key document.entries, key⟩, ← endLine? rest)
    | _ => none
  | '[' :: rest =>
    let (key, rest) ← key? rest
    match rest with
    | ']' :: rest => return (⟨← openTable key document.entries, key⟩, ← endLine? rest)
    | _ => none
  | cs =>
    let (key, rest) ← key? cs
    match rest with
    | '=' :: rest =>
      let (setting, rest) ← value? nestingLimit (2 * cs.length + 2) (skipSpaces rest)
      let entries ← descend false (define key setting) document.current .headed document.entries
      return ({ document with entries := entries }, ← endLine? rest)
    | _ => none

/-- Reads lines to the end of the text; there are at most `bound` of them. -/
def lines? : Nat → Document → List Char → Option Document
  | 0, document, cs => if cs.isEmpty then some document else none
  | bound + 1, document, cs =>
    match skipLines cs.length cs with
    | none => none
    | some [] => some document
    | some rest => do
      let (document, rest) ← line? document rest
      lines? bound document rest

/-- A byte order mark at the start means nothing. -/
def skipMark : List Char → List Char
  | '\ufeff' :: rest => rest
  | cs => cs

/-- The settings at the top of a document, or nothing if it is not one. -/
def parse? (text : String) : Option Settings := do
  let cs := skipMark text.toList
  let document ← lines? (cs.length + 1) {} cs
  return settingsOf document.entries

end LatexFormatter.Toml
