import LatexFormatter.Options

/-
  Numbers as TOML writes them. Integers have 64 bits and a sign. Of numbers with
  a fraction or an exponent only one thing matters here: that they are not too
  large for a floating-point number.
-/

namespace LatexFormatter.Toml

/-! ## Digits -/

/-- The value of a digit in a base of at most sixteen. -/
def digit? (base : Nat) (c : Char) : Option Nat :=
  let value :=
    if '0' ≤ c && c ≤ '9' then c.toNat - '0'.toNat
    else if 'a' ≤ c && c ≤ 'f' then c.toNat - 'a'.toNat + 10
    else if 'A' ≤ c && c ≤ 'F' then c.toNat - 'A'.toNat + 10
    else base
  if value < base then some value else none

/-- The number that digits amount to, after those that amount to `before`. A
single underscore may stand between two digits. -/
def digitsAfter (base before : Nat) : List Char → Option Nat
  | [] => some before
  | '_' :: c :: rest => do digitsAfter base (before * base + (← digit? base c)) rest
  | c :: rest => do digitsAfter base (before * base + (← digit? base c)) rest

/-- The number that digits amount to; there has to be one at least. -/
def digits? (base : Nat) : List Char → Option Nat
  | [] => none
  | c :: rest => do digitsAfter base (← digit? base c) rest

/-- The number that exactly `n` plain decimal digits amount to. -/
def fixedDigits? (n : Nat) (cs : List Char) : Option Nat :=
  if cs.length == n && cs.all isDigit then digits? 10 cs else none

/-! ## Numbers -/

/-- Splits a leading sign off; the sign is minus if `true`. -/
def splitSign : List Char → Option Bool × List Char
  | '+' :: rest => (some false, rest)
  | '-' :: rest => (some true, rest)
  | cs => (none, cs)

/-- Decimal digits without a superfluous zero at the front. -/
def wholeDigits? : List Char → Option Nat
  | ['0'] => some 0
  | '0' :: _ => none
  | cs => digits? 10 cs

/-- An integer of 64 bits. -/
def integer? (cs : List Char) : Option Int := do
  let magnitude : Int ← match cs with
    | '0' :: 'x' :: rest => (digits? 16 rest).map Int.ofNat
    | '0' :: 'o' :: rest => (digits? 8 rest).map Int.ofNat
    | '0' :: 'b' :: rest => (digits? 2 rest).map Int.ofNat
    | cs =>
      let (sign, rest) := splitSign cs
      (wholeDigits? rest).map fun n => if sign == some true then -(n : Int) else n
  if -(signedLimit : Int) ≤ magnitude && magnitude < signedLimit then some magnitude else none

/-! ## Numbers with a fraction or an exponent -/

/-- A number in decimal: its digits, and the power of ten to multiply them
by. -/
structure Decimal where
  digits : Nat
  exponent : Int
  deriving Repr, DecidableEq

/-- The least number that is rounded up beyond all floating-point numbers of 64
bits. It lies halfway between the greatest of them and the next power of two. -/
def floatLimit : Nat := 0x3fffffffffffff <<< 970

/-- Whether the number is too large for a floating-point number of 64 bits. Its
size is compared first, so that a large exponent costs nothing: the limit has 309
digits. -/
def Decimal.isHuge (number : Decimal) : Bool :=
  let size : Int := (Nat.toDigits 10 number.digits).length + number.exponent
  if number.digits == 0 || size < 309 then false
  else if 309 < size then true
  else match number.exponent with
    | .ofNat up => floatLimit ≤ number.digits * Nat.pow 10 up
    | .negSucc down => floatLimit * Nat.pow 10 (down + 1) ≤ number.digits

def isExponentMark (c : Char) : Bool := c == 'e' || c == 'E'

/-- An exponent with its mark and possibly a sign; where there is none it is
zero. -/
def exponent? : List Char → Option Int
  | [] => some 0
  | _ :: cs =>
    let (sign, digits) := splitSign cs
    (digits? 10 digits).map fun n => if sign == some true then -(n : Int) else n

/-- A number without a sign that has a fraction, an exponent or both. -/
def decimal? (cs : List Char) : Option Decimal := do
  let whole := cs.takeWhile fun c => c != '.' && !isExponentMark c
  match cs.drop whole.length with
  | [] => none
  | '.' :: rest =>
    let fraction := rest.takeWhile (!isExponentMark ·)
    let places := (fraction.filter (· != '_')).length
    let digits := (← wholeDigits? whole) * Nat.pow 10 places + (← digits? 10 fraction)
    return ⟨digits, (← exponent? (rest.drop fraction.length)) - places⟩
  | rest => return ⟨← wholeDigits? whole, ← exponent? rest⟩

/-- Whether the text is a floating-point number or one of those that are none. A
number below zero may be as large as it likes. -/
def isFloat (cs : List Char) : Bool :=
  let (sign, magnitude) := splitSign cs
  if magnitude == ['i', 'n', 'f'] || magnitude == ['n', 'a', 'n'] then true
  else match decimal? magnitude with
    | none => false
    | some number => sign == some true || !number.isHuge

end LatexFormatter.Toml
