import LatexFormatter.Text.Invisible

/-
  Quoted text: text between double quotes in which every character can be
  seen. The quote and the backslash take a backslash, the common control
  characters have a letter, and every other invisible character is written by
  its number in braces.
-/

namespace LatexFormatter.Text

/-- The lower-case hexadecimal digits of a number, without padding. -/
def hexDigits (n : Nat) : List Char := Nat.toDigits 16 n

/-- A character as quoted text shows it. -/
def quotedChar (c : Char) : List Char :=
  match c with
  | '"' => ['\\', '"']
  | '\\' => ['\\', '\\']
  | '\t' => ['\\', 't']
  | '\n' => ['\\', 'n']
  | '\r' => ['\\', 'r']
  | '\x00' => ['\\', '0']
  | c => if isInvisible c then ['\\', 'u', '{'] ++ hexDigits c.toNat ++ ['}'] else [c]

/-- The text in quotes. -/
def quotedChars (cs : List Char) : List Char :=
  '"' :: cs.flatMap quotedChar ++ ['"']

/-- The string in quotes. -/
def quoted (s : String) : String := String.ofList (quotedChars s.toList)

end LatexFormatter.Text
