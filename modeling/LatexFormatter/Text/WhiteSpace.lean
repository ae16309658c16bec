/-
  The Unicode property White_Space, as ranges of code points. It is wider than
  the blanks of the grammar: a no-break space or an ideographic space separates
  no words here, but it cannot delimit literal text either.
-/

namespace LatexFormatter.Text

/-- The code points with the property White_Space, as closed ranges. -/
def whiteSpaceRanges : List (Nat × Nat) :=
  [(0x9, 0xd), (0x20, 0x20), (0x85, 0x85), (0xa0, 0xa0), (0x1680, 0x1680), (0x2000, 0x200a),
    (0x2028, 0x2029), (0x202f, 0x202f), (0x205f, 0x205f), (0x3000, 0x3000)]

/-- Whether the character has the property White_Space. -/
def isWhiteSpace (c : Char) : Bool :=
  whiteSpaceRanges.any fun (first, last) => first ≤ c.toNat && c.toNat ≤ last

end LatexFormatter.Text
