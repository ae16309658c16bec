import LatexFormatter.Diagnostic
import LatexFormatter.Proofs.Grammar.Termination
import LatexFormatter.Proofs.Text.Lines

/-
  What is reported of a text that cannot be read. Every failed attempt leaves a note
  of what it expected and where; the report keeps those at the furthest place. So an
  error is what a list of notes amounts to, the last of which says that the end of
  the text was expected where the sequence at the top stopped (`exists_notes`).

  Such a report points into the text: to a boundary of it, which its line and column
  give again, with the character that stands there (`report_points_into_source`).
-/

namespace LatexFormatter

/-! ## What notes amount to -/

namespace Memory

variable {memory : Memory} {notes : List Note} {what : String}

/-- What is expected after a note was expected there before, or has been noted. -/
theorem mem_expected_expect {offset : Nat} {other : String}
    (h : what ∈ (memory.expect offset other).expected) :
    (offset = (memory.expect offset other).furthest ∧ what = other) ∨
      (memory.furthest = (memory.expect offset other).furthest ∧ what ∈ memory.expected) := by
  unfold expect at h ⊢
  split
  · next hlt =>
    rw [if_pos hlt] at h
    exact Or.inl ⟨rfl, List.mem_singleton.1 h⟩
  · next hlt =>
    rw [if_neg hlt] at h
    split
    · next heq =>
      rw [if_pos heq] at h
      rcases mem_insertOrdered.1 h with h | h
      · exact Or.inl ⟨heq, h⟩
      · exact Or.inr ⟨rfl, h⟩
    · next heq =>
      rw [if_neg heq] at h
      exact Or.inr ⟨rfl, h⟩

/-- No note lies beyond the furthest place. -/
theorem le_furthest_of_mem {note : Note} (h : note ∈ notes) :
    note.1 ≤ (memory.noteAll notes).furthest := by
  rcases covers_noteAll memory h with h | ⟨h, -⟩
  · exact Nat.le_of_lt h
  · exact Nat.le_of_eq h

theorem furthest_noteAll (memory : Memory) (notes : List Note) :
    (memory.noteAll notes).furthest = memory.furthest ∨
      ∃ note ∈ notes, note.1 = (memory.noteAll notes).furthest := by
  induction notes generalizing memory with
  | nil => exact Or.inl rfl
  | cons note rest ih =>
    rcases ih (memory.expect note.1 note.2) with h | ⟨other, hother, h⟩
    · have hfirst : (memory.expect note.1 note.2).furthest = memory.furthest ∨
          (memory.expect note.1 note.2).furthest = note.1 := by
        unfold expect
        split
        · exact Or.inr rfl
        · split
          · exact Or.inl rfl
          · exact Or.inl rfl
      rcases hfirst with hfirst | hfirst
      · exact Or.inl (h.trans hfirst)
      · exact Or.inr ⟨note, List.mem_cons_self .., (h.trans hfirst).symm⟩
    · exact Or.inr ⟨other, List.mem_cons_of_mem _ hother, h⟩

/-- Where something has been noted, something is expected. -/
theorem expected_ne_nil (hne : notes ≠ []) : (blank.noteAll notes).expected ≠ [] := by
  -- some note is at the furthest place, and so it is covered there
  have hmem : ∃ note ∈ notes, ¬ note.1 < (blank.noteAll notes).furthest := by
    rcases furthest_noteAll blank notes with h | ⟨note, hnote, h⟩
    · obtain ⟨note, rest, rfl⟩ := List.exists_cons_of_ne_nil hne
      exact ⟨note, List.mem_cons_self .., by rw [h]; exact Nat.not_lt_zero _⟩
    · exact ⟨note, hnote, by omega⟩
  obtain ⟨note, hnote, hlt⟩ := hmem
  rcases covers_noteAll blank hnote with h | ⟨-, h⟩
  · exact absurd h hlt
  · exact List.ne_nil_of_mem h

end Memory

/-! ## The notes of a document -/

/-- A text that cannot be read leaves notes, all at boundaries of it; the last says
that the end was expected where the sequence at the top stopped. The error is what
they amount to. -/
theorem exists_notes {text : String} {error : SyntaxError}
    (h : readDocument text = .error error) :
    ∃ (stop : Cursor) (items : List ParseTree) (notes : List Note),
      MemoryFree ((Ahead.within Retrieval.fresh (text.toList.length + 1)).sequence .text none
        (Cursor.start text.toList)) (stop, items) notes ∧
      (readSequence Retrieval.cached text.toList).1 = (stop, items) ∧
      stop.Within text.toList ∧ stop.rest ≠ [] ∧
      (∀ note ∈ notes ++ [(stop.offset, "end of input")], Boundary text.toList note.1) ∧
      error = (Memory.blank.noteAll (notes ++ [(stop.offset, "end of input")])).report
        text.toList := by
  obtain ⟨⟨stop, items⟩, notes, hstop, hamounts⟩ := settles_document grows_true text.toList
  have hfree := hamounts.memoryFree _ (Nat.le_refl _)
  have hread : readSequence Retrieval.fresh text.toList
      = ((stop, items), Memory.blank.noteAll notes) := hfree Memory.blank
  rw [readDocument, readDocumentBy_cached, readDocumentBy, hread] at h
  simp only at h
  split at h
  · cases h
  · next hrest =>
    cases h
    refine ⟨stop, items, notes, hfree, ?_, hstop.1, ?_, ?_, ?_⟩
    · rw [(readSequence_agree text.toList).1, hread]
    · simpa using hrest
    · refine List.forall_mem_append.2 ⟨hamounts.boundary, ?_⟩
      simpa using hstop.1.boundary
    · rw [Memory.noteAll_append]
      rfl

/-! ## What the report says of its place -/

/-- The character at the end of a piece is the first one behind it. -/
theorem charAtOffset?_append (before after : List Char) :
    charAtOffset? (before ++ after) (utf8Length before) = after.head? := by
  induction before with
  | nil =>
    cases after with
    | nil => rfl
    | cons c cs => rfl
  | cons c cs ih =>
    have hpos := c.utf8Size_pos
    have hne : (c.utf8Size + utf8Length cs == 0) = false := beq_false_of_ne (by omega)
    have hrest : c.utf8Size + utf8Length cs - c.utf8Size = utf8Length cs := by omega
    rw [List.cons_append, charAtOffset?, utf8Length, hne, hrest, ih]
    rfl

theorem Boundary.exists_append {source : List Char} {offset : Nat} (h : Boundary source offset) :
    ∃ before after, source = before ++ after ∧ offset = utf8Length before := by
  obtain ⟨here, ⟨n, rfl⟩, rfl⟩ := h
  refine ⟨source.take n, source.drop n, (List.take_append_drop n source).symm, ?_⟩
  simp [Cursor.skip, Cursor.start]

/-- A place of a text, by the text before it and the line it lies on. A place between
two lines belongs to the second. -/
structure Located (source before after : List Char) (front : List Line) (line : Line)
    (back : List Line) (location : Location) : Prop where
  text : source = before ++ after
  offset : location.offset = utf8Length before
  lines : Lined source (front ++ line :: back)
  number : location.line = front.length + 1
  column : 1 ≤ location.column
  inside : location.column ≤ line.whole.length + 1
  piece : before = front.flatMap Line.whole ++ line.whole.take (location.column - 1)
  belongs : location.column ≤ line.whole.length ∨ back = []

/-- Every boundary has a line and a column, and they lead back to it. -/
theorem exists_located {source before after : List Char} (h : source = before ++ after) :
    ∃ front line back,
      Located source before after front line back
        (Location.ofOffset source (utf8Length before)) := by
  have hlined := lined_linesOf source
  obtain ⟨front, line, back, piece, rest, hlines, hline, hbefore, hrest⟩ :=
    exists_line_of_append hlined.ne_nil (hlined.flatMap_whole.trans h)
  rw [hlines] at hlined
  have hplace := Location.ofOffset_eq hlined hline hrest
  rw [← hbefore] at hplace
  refine ⟨front, line, back, ?_⟩
  rw [hplace]
  refine ⟨h, rfl, hlined, rfl, ?_, ?_, ?_, ?_⟩
  · show 1 ≤ piece.length + 1
    omega
  · show piece.length + 1 ≤ line.whole.length + 1
    rw [hline, List.length_append]
    omega
  · show before = front.flatMap Line.whole ++ line.whole.take (piece.length + 1 - 1)
    rw [hline, Nat.add_sub_cancel, List.take_left, hbefore]
  · refine hrest.imp_left fun hne => ?_
    show piece.length + 1 ≤ line.whole.length
    have hpos := List.length_pos_iff.2 hne
    rw [hline, List.length_append]
    omega

/-- The line of a place is the one with its number. -/
theorem Located.lineAt? {source before after : List Char} {front back : List Line} {line : Line}
    {location : Location} (h : Located source before after front line back location) :
    Diagnostic.lineAt? source location.line = some (String.ofList line.text) := by
  rw [Diagnostic.lineAt?, linesOf_eq_iff.2 h.lines, h.number, Nat.add_sub_cancel]
  simp

/-- Notes at boundaries amount to a report about the furthest of them: that is its
offset, and what it has found is the character there. -/
theorem exists_located_report {source : List Char} {notes : List Note}
    (h : ∀ note ∈ notes, Boundary source note.1) :
    ∃ before after front line back,
      Located source before after front line back
        ((Memory.blank.noteAll notes).report source).location ∧
      ((Memory.blank.noteAll notes).report source).found
        = after.head?.map (fun c => String.ofList [c]) ∧
      ((Memory.blank.noteAll notes).report source).location.offset
        = (Memory.blank.noteAll notes).furthest := by
  have hfurthest : Boundary source (Memory.blank.noteAll notes).furthest :=
    boundary_noteAll (Cursor.within_start source).boundary h
  obtain ⟨before, after, hsource, hoffset⟩ := hfurthest.exists_append
  obtain ⟨front, line, back, hlocated⟩ := exists_located hsource
  rw [← hoffset] at hlocated
  refine ⟨before, after, front, line, back, hlocated, ?_, hlocated.offset.trans hoffset.symm⟩
  show (charAtOffset? source (Memory.blank.noteAll notes).furthest).map _ = _
  rw [hoffset, hsource, charAtOffset?_append]

/-- Nothing is found only at the end of the text. -/
theorem Located.head?_eq_none_iff {source before after : List Char} {front back : List Line}
    {line : Line} {location : Location}
    (h : Located source before after front line back location) :
    after.head? = none ↔ location.offset = utf8Length source := by
  rw [h.offset, h.text, utf8Length_append, List.head?_eq_none_iff]
  constructor
  · rintro rfl
    rfl
  · intro hlength
    exact utf8Length_eq_zero (by omega)

/-- **A report points into the text.** Of every text that cannot be read, the error
is located at a boundary of the text, not before the place where the sequence at the
top stopped; something was expected there, in strictly ascending order; what was
found is the character at that place, and nothing only at the end; its line and
column lead to that very place; and the finding quotes the line with that number. -/
theorem report_points_into_source {text : String} {failure : FormatError}
    (h : parse text = .error failure) :
    ∃ error before after front line back, failure = .outsideGrammar error ∧
      Located text.toList before after front line back error.location ∧
      (readSequence Retrieval.cached text.toList).1.1.offset ≤ error.location.offset ∧
      error.location.offset ≤ utf8Length text.toList ∧
      error.expected ≠ [] ∧ error.expected.Pairwise (· < ·) ∧
      error.found = after.head?.map (fun c => String.ofList [c]) ∧
      (error.found = none ↔ error.location.offset = utf8Length text.toList) ∧
      (Diagnostic.ofSyntaxError error text).location = some error.location ∧
      (Diagnostic.ofSyntaxError error text).lineText = some (String.ofList line.text) := by
  obtain ⟨error, hread, hparse⟩ | ⟨tree, nodes, -, -, hparse, -⟩ := parse_derives text
  · obtain rfl : failure = .outsideGrammar error := by
      rw [hparse] at h
      exact (Except.error.inj h).symm
    have hascending := expected_of_readDocumentBy hread
    obtain ⟨stop, items, notes, -, hstop, -, -, hboundary, rfl⟩ := exists_notes hread
    obtain ⟨before, after, front, line, back, hlocated, hfound, hoffset⟩ :=
      exists_located_report hboundary
    have hlast : (stop.offset, "end of input") ∈ notes ++ [(stop.offset, "end of input")] := by
      simp
    refine ⟨_, before, after, front, line, back, rfl, hlocated, ?_, ?_, ?_, hascending, hfound,
      ?_, rfl, hlocated.lineAt?⟩
    · rw [hstop, hoffset]
      exact Memory.le_furthest_of_mem hlast
    · have hplace := hlocated.offset
      have hlength : utf8Length text.toList = utf8Length before + utf8Length after := by
        rw [hlocated.text, utf8Length_append]
      omega
    · exact Memory.expected_ne_nil (List.ne_nil_of_mem hlast)
    · rw [hfound, Option.map_eq_none_iff]
      exact hlocated.head?_eq_none_iff
  · rw [hparse] at h
    cases h

/-- A stray brace on the second line, which an environment was to be closed before. -/
theorem report_points_into_source_second_line :
    let error : SyntaxError :=
      { expected := ["\"\\\\end\x7be\x7d\"", "text"], found := some "\x7d", location := ⟨12, 2, 2⟩ }
    parse "\\begin\x7be\x7d\r\na\x7db" = .error (.outsideGrammar error) ∧
      ∃ before after front line back,
        Located "\\begin\x7be\x7d\r\na\x7db".toList before after front line back error.location ∧
        (Diagnostic.ofSyntaxError error "\\begin\x7be\x7d\r\na\x7db").lineText
          = some (String.ofList line.text) := by
  intro error
  have hparse : parse "\\begin\x7be\x7d\r\na\x7db" = .error (.outsideGrammar error) := by
    unfold parse readDocument
    rw [readDocumentBy_cached]
    rfl
  obtain ⟨_, before, after, front, line, back, hfailure, hlocated, -, -, -, -, -, -, -, hquoted⟩ :=
    report_points_into_source hparse
  cases hfailure
  exact ⟨hparse, before, after, front, line, back, hlocated, hquoted⟩

end LatexFormatter
