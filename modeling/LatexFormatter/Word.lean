/-
  Numbers of 64 bits. The printers count columns in machine words: a result that
  a word cannot hold is cut to its lowest 64 bits, and read back with a sign
  where the word has one.

  One thing is idealised. A text of 2^63 characters or more fits in no memory, so
  no run ever gets to count past one. The lists of this model are not bounded so,
  and a number that is kept beside a text of that length is left as it is. On
  every text that can be written `unsignedWord` and `signedWord` are the arithmetic of
  the machine (`unsignedWord_eq_mod`, `signedWord_eq_bmod`); beside any text they leave a
  number alone that fits (`unsignedWord_of_lt`, `signedWord_of_fits`).
-/

namespace LatexFormatter

/-- One more than the greatest number of 64 bits. -/
def wordLimit : Nat := 0x10000000000000000

/-- One more than the greatest number of 64 bits that has a sign. -/
def signedLimit : Nat := 0x8000000000000000

theorem wordLimit_eq : wordLimit = 2 * signedLimit := rfl

/-! ## Words without a sign -/

/-- A number as a word holds it, beside a text of `written` characters. -/
@[inline] def unsignedWord (n written : Nat) : Nat :=
  if n < wordLimit then n else if written < signedLimit then n % wordLimit else n

section

variable {n written : Nat}

theorem unsignedWord_of_lt (h : n < wordLimit) : unsignedWord n written = n := if_pos h

theorem unsignedWord_eq_mod (h : written < signedLimit) :
    unsignedWord n written = n % wordLimit := by
  unfold unsignedWord
  split
  · next hlt => rw [Nat.mod_eq_of_lt hlt]
  · rfl

theorem unsignedWord_le (n written : Nat) : unsignedWord n written ≤ n := by
  unfold unsignedWord
  split
  · exact Nat.le_refl n
  · split
    · exact Nat.mod_le n wordLimit
    · exact Nat.le_refl n

/-- No number of characters that have been written is cut. -/
theorem unsignedWord_of_le (h : n ≤ written) : unsignedWord n written = n := by
  have := wordLimit_eq
  unfold unsignedWord
  split
  · rfl
  · exact if_neg (by omega)

@[simp] theorem unsignedWord_zero (written : Nat) : unsignedWord 0 written = 0 :=
  unsignedWord_of_le (Nat.zero_le written)

end

/-! ## Words with a sign -/

/-- A number of 64 bits, read with a sign. -/
def signed64 (n : Nat) : Int :=
  if n % wordLimit < signedLimit then (n % wordLimit : Nat)
  else (n % wordLimit : Nat) - (wordLimit : Nat)

/-- Whether a word with a sign can hold a number. -/
def FitsSigned (n : Int) : Prop := -(signedLimit : Int) ≤ n ∧ n < signedLimit

instance (n : Int) : Decidable (FitsSigned n) := inferInstanceAs (Decidable (_ ∧ _))

/-- A number as a word with a sign holds it, beside a text of `written`
characters. -/
@[inline] def signedWord (n : Int) (written : Nat) : Int :=
  if FitsSigned n then n else if written < signedLimit then n.bmod wordLimit else n

section

variable {n : Int} {written : Nat}

theorem signed64_of_lt {n : Nat} (h : n < signedLimit) : signed64 n = n := by
  have hword : n % wordLimit = n := Nat.mod_eq_of_lt (Nat.lt_trans h (by decide))
  rw [signed64, hword, if_pos h]

theorem fitsSigned_signed64 (n : Nat) : FitsSigned (signed64 n) := by
  have hword : n % wordLimit < wordLimit := Nat.mod_lt n (by decide)
  have := wordLimit_eq
  unfold FitsSigned signed64
  split <;> omega

/-- What lies between nothing and a width fits. -/
theorem fitsSigned_of_le (width : Nat) (hpos : 0 ≤ n) (hle : n ≤ signed64 width) :
    FitsSigned n := by
  have hwidth := fitsSigned_signed64 width
  unfold FitsSigned at hwidth ⊢
  omega

theorem signed64_mod (n : Nat) : signed64 n % wordLimit = n % wordLimit := by
  have hcut : ((n % wordLimit : Nat) : Int) % wordLimit = n % wordLimit := by
    rw [Int.natCast_emod, Int.emod_emod]
  unfold signed64
  split
  · exact hcut
  · rw [Int.sub_emod_right, hcut]

theorem signedWord_of_fits (h : FitsSigned n) : signedWord n written = n := if_pos h

theorem bmod_of_fits (h : FitsSigned n) : n.bmod wordLimit = n := by
  have := wordLimit_eq
  exact Int.bmod_eq_of_le (by unfold FitsSigned at h; omega) (by unfold FitsSigned at h; omega)

theorem signedWord_eq_bmod (h : written < signedLimit) :
    signedWord n written = n.bmod wordLimit := by
  unfold signedWord
  split
  · next hfits => rw [bmod_of_fits hfits]
  · rfl

theorem fitsSigned_signedWord (h : written < signedLimit) : FitsSigned (signedWord n written) := by
  have := wordLimit_eq
  have hpos : 0 < wordLimit := by decide
  have hle := Int.le_bmod (x := n) hpos
  have hlt := Int.bmod_lt (x := n) hpos
  rw [signedWord_eq_bmod h]
  unfold FitsSigned
  omega

theorem signedWord_of_long (h : signedLimit ≤ written) : signedWord n written = n := by
  unfold signedWord
  split
  · rfl
  · exact if_neg (Nat.not_lt.2 h)

/-- No number of characters that have been written is cut, whatever its sign. -/
theorem signedWord_of_le (hle : -(written : Int) ≤ n) (hge : n ≤ written) :
    signedWord n written = n := by
  by_cases hfits : FitsSigned n
  · exact signedWord_of_fits hfits
  · exact signedWord_of_long (by unfold FitsSigned at hfits; omega)

/-- Nor is a number that lies so far below nothing. -/
theorem signedWord_of_ge (hge : -(written : Int) ≤ n) (hlt : n < signedLimit) :
    signedWord n written = n := by
  by_cases hfits : FitsSigned n
  · exact signedWord_of_fits hfits
  · exact signedWord_of_long (by unfold FitsSigned at hfits; omega)

/-- Cutting a number changes it by a multiple of the limit. -/
theorem signedWord_mod (n : Int) (written : Nat) :
    signedWord n written % wordLimit = n % wordLimit := by
  unfold signedWord
  split
  · rfl
  · split
    · exact Int.bmod_emod
    · rfl

/-- A number that a machine can hold is known from what it leaves. -/
theorem eq_bmod_of_mod {m : Int} (hfits : FitsSigned n) (h : n % wordLimit = m % wordLimit) :
    n = m.bmod wordLimit := by
  rw [← bmod_of_fits hfits, ← Int.emod_bmod, h, Int.emod_bmod]

end

end LatexFormatter
