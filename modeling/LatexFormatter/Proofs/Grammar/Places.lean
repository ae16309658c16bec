import LatexFormatter.Grammar.Rules

/-
  The places of a text. A cursor that was reached from the start of the text by
  skipping characters is one of its places, and such a cursor is determined by
  its offset alone: what is left to be read and whether the line is still fresh
  follow from how many bytes have been read.
-/

namespace LatexFormatter

/-! ## Bytes -/

@[simp] theorem utf8Length_append (xs ys : List Char) :
    utf8Length (xs ++ ys) = utf8Length xs + utf8Length ys := by
  induction xs with
  | nil => simp [utf8Length]
  | cons x xs ih => simp [utf8Length, ih, Nat.add_assoc]

theorem utf8Length_eq_zero {cs : List Char} (h : utf8Length cs = 0) : cs = [] := by
  cases cs with
  | nil => rfl
  | cons c cs =>
    have hpos := c.utf8Size_pos
    simp only [utf8Length] at h
    omega

theorem take_eq_of_le_of_utf8Length {cs : List Char} {m n : Nat} (hle : m ≤ n)
    (h : utf8Length (cs.take m) = utf8Length (cs.take n)) : cs.take m = cs.take n := by
  obtain ⟨k, rfl⟩ := Nat.exists_eq_add_of_le hle
  rw [List.take_add, utf8Length_append] at h
  have hnil : (cs.drop m).take k = [] := utf8Length_eq_zero (by omega)
  rw [List.take_add, hnil, List.append_nil]

/-- Two starts of a text that take the same number of bytes are the same. -/
theorem take_eq_of_utf8Length {cs : List Char} {m n : Nat}
    (h : utf8Length (cs.take m) = utf8Length (cs.take n)) : cs.take m = cs.take n := by
  rcases Nat.le_total m n with hle | hle
  · exact take_eq_of_le_of_utf8Length hle h
  · exact (take_eq_of_le_of_utf8Length hle h.symm).symm

theorem runLength_le (p : Char → Bool) (cs : List Char) : runLength p cs ≤ cs.length :=
  (List.takeWhile_sublist p).length_le

theorem take_runLength (p : Char → Bool) (cs : List Char) :
    cs.take (runLength p cs) = cs.takeWhile p := by
  induction cs with
  | nil => simp [runLength]
  | cons c cs ih =>
    by_cases hc : p c = true
    · simpa [runLength, hc] using ih
    · simp [runLength, hc]

/-! ## Skipping -/

namespace Cursor

@[simp] theorem rest_skip (n : Nat) (here : Cursor) : (here.skip n).rest = here.rest.drop n := rfl

@[simp] theorem skip_zero (here : Cursor) : here.skip 0 = here := by
  simp [skip, utf8Length]

theorem skip_skip (m n : Nat) (here : Cursor) : (here.skip m).skip n = here.skip (m + n) := by
  simp [skip, List.take_add, Nat.add_assoc, List.foldl_append]

theorem length_skip (n : Nat) (here : Cursor) :
    (here.skip n).rest.length = here.rest.length - n := by simp

theorem length_skipBlanks_le (here : Cursor) :
    here.skipBlanks.rest.length ≤ here.rest.length := by
  rw [skipBlanks, length_skip]
  omega

theorem offset_skip_all (here : Cursor) :
    (here.skip here.rest.length).offset = here.finalOffset := by
  simp [skip, finalOffset]

theorem rest_ne_nil_of_peek {here : Cursor} {c : Char} (h : here.peek = some c) :
    ∃ rest, here.rest = c :: rest := by
  unfold peek at h
  cases hrest : here.rest with
  | nil => simp [hrest] at h
  | cons d rest =>
    rw [hrest, List.head?_cons, Option.some.injEq] at h
    exact ⟨rest, by rw [h]⟩

theorem length_pos_of_peek {here : Cursor} {c : Char} (h : here.peek = some c) :
    0 < here.rest.length := by
  obtain ⟨rest, hrest⟩ := rest_ne_nil_of_peek h
  simp [hrest]

theorem length_le_of_sees {here : Cursor} {cs : List Char} (h : here.sees cs = true) :
    cs.length ≤ here.rest.length :=
  (List.isPrefixOf_iff_prefix.mp h).length_le

/-! ## Places of a text -/

/-- The cursor stands at a place of the text. -/
def Within (source : List Char) (here : Cursor) : Prop := ∃ n, here = (start source).skip n

theorem within_start (source : List Char) : (start source).Within source := ⟨0, by simp⟩

theorem Within.skip {source : List Char} {here : Cursor} (h : here.Within source) (n : Nat) :
    (here.skip n).Within source := by
  obtain ⟨m, rfl⟩ := h
  exact ⟨m + n, skip_skip m n _⟩

theorem Within.skipBlanks {source : List Char} {here : Cursor} (h : here.Within source) :
    here.skipBlanks.Within source := h.skip _

theorem Within.length_le {source : List Char} {here : Cursor} (h : here.Within source) :
    here.rest.length ≤ source.length := by
  obtain ⟨n, rfl⟩ := h
  simp [start]

/-- A place is known by its offset. -/
theorem Within.eq_of_offset {source : List Char} {here there : Cursor} (hh : here.Within source)
    (ht : there.Within source) (h : here.offset = there.offset) : here = there := by
  obtain ⟨m, rfl⟩ := hh
  obtain ⟨n, rfl⟩ := ht
  have hlength : utf8Length (source.take m) = utf8Length (source.take n) := by
    simpa [Cursor.skip, start] using h
  have htake : source.take m = source.take n := take_eq_of_utf8Length hlength
  have hdrop : source.drop m = source.drop n := by
    have hm := List.take_append_drop m source
    rw [htake] at hm
    exact List.append_cancel_left (hm.trans (List.take_append_drop n source).symm)
  simp [Cursor.skip, start, htake, hdrop]

end Cursor

/-- The byte offset is one where a character of the text starts, or its end. -/
def Boundary (source : List Char) (offset : Nat) : Prop :=
  ∃ here : Cursor, here.Within source ∧ here.offset = offset

theorem Cursor.Within.boundary {source : List Char} {here : Cursor} (h : here.Within source) :
    Boundary source here.offset := ⟨here, h, rfl⟩

theorem Cursor.Within.boundary_final {source : List Char} {here : Cursor}
    (h : here.Within source) : Boundary source here.finalOffset :=
  ⟨here.skip here.rest.length, h.skip _, here.offset_skip_all⟩

end LatexFormatter
