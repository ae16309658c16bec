import LatexFormatter.Proofs.Grammar.Reports

/-
  Lines as ranges of bytes. The lines of a text are cut by its characters; where each
  of them starts and stops is then a matter of counting bytes (`lineSpans`). Looking
  for the line endings byte by byte comes to the same ranges (`Lined.scanBytes_eq`),
  because no byte of any other character is a carriage return or a line feed.

  Ranges and places are two views of one text: a line and a column lead to an offset
  and back, and offsets are in order as their lines and columns are
  (`spans_and_places`).
-/

namespace LatexFormatter

/-! ## Ranges -/

/-- A range of bytes, from `start` up to and without `stop`. -/
structure Span where
  start : Nat
  stop : Nat
  deriving Repr, DecidableEq

/-- The ranges that lines take, without their endings, the first from `start` on. -/
def spansFrom (start : Nat) : List Line → List Span
  | [] => []
  | line :: rest =>
    ⟨start, start + utf8Length line.text⟩ :: spansFrom (start + utf8Length line.whole) rest

/-- The ranges of the lines of a text. -/
def lineSpans (source : List Char) : List Span := spansFrom 0 (linesOf source)

/-- The ranges tile the text from byte `start` on, each of them but the last with one
line ending behind it, and line breaks occur in the endings only. -/
inductive Tiles : Nat → List Char → List Span → Prop
  | last {start : Nat} {text : List Char} (h : ∀ c ∈ text, isLineBreak c = false) :
      Tiles start text [⟨start, start + utf8Length text⟩]
  | cons {start : Nat} {text ending rest : List Char} {spans : List Span}
      (h : ∀ c ∈ text, isLineBreak c = false) (hending : EndsLine ending rest)
      (hrest : Tiles (start + utf8Length text + utf8Length ending) rest spans) :
      Tiles start (text ++ (ending ++ rest)) (⟨start, start + utf8Length text⟩ :: spans)

theorem utf8Length_whole (line : Line) :
    utf8Length line.whole = utf8Length line.text + utf8Length line.ending :=
  utf8Length_append ..

theorem utf8Length_ending_pos {ending rest : List Char} (h : EndsLine ending rest) :
    0 < utf8Length ending := by
  obtain rfl | rfl | ⟨rfl, -⟩ := h <;> decide

theorem Lined.tiles {source : List Char} {lines : List Line} (h : Lined source lines)
    (start : Nat) : Tiles start source (spansFrom start lines) := by
  induction h generalizing start with
  | last htext => exact .last htext
  | @cons text ending rest lines htext hending _ ih =>
    have hrest := ih (start + utf8Length (Line.whole ⟨text, ending⟩))
    rw [utf8Length_whole, ← Nat.add_assoc] at hrest
    rw [spansFrom, utf8Length_whole, ← Nat.add_assoc]
    exact .cons htext hending hrest

namespace Tiles

variable {start : Nat} {source : List Char} {spans : List Span}

/-- Every range lies within the text. -/
theorem within (h : Tiles start source spans) :
    ∀ span ∈ spans, start ≤ span.start ∧ span.start ≤ span.stop ∧
      span.stop ≤ start + utf8Length source := by
  induction h with
  | last =>
    intro span hspan
    rw [List.mem_singleton.1 hspan]
    simp
  | @cons start text ending rest spans _ _ _ ih =>
    intro span hspan
    simp only [utf8Length_append]
    rcases List.mem_cons.1 hspan with heq | hspan
    · rw [heq]
      simp
    · have := ih span hspan
      omega

/-- A range stops before the next one starts. -/
theorem pairwise (h : Tiles start source spans) :
    spans.Pairwise fun span later => span.stop < later.start := by
  induction h with
  | last => exact List.pairwise_singleton _ _
  | @cons start text ending rest spans _ hending hrest ih =>
    apply List.Pairwise.cons _ ih
    intro later hlater
    have hwithin := hrest.within later hlater
    have hpos := utf8Length_ending_pos hending
    show start + utf8Length text < later.start
    omega

end Tiles

/-! ## Looking for lines byte by byte -/

/-- The bytes that encode a text. -/
def utf8Bytes (source : List Char) : List UInt8 := source.flatMap String.utf8EncodeChar

/-- The ranges between the line endings in a sequence of bytes, the first of which
starts at `start`, once `position` has been reached. -/
def scanBytes (start position : Nat) : List UInt8 → List Span
  | [] => [⟨start, position⟩]
  | 13 :: 10 :: rest => ⟨start, position⟩ :: scanBytes (position + 2) (position + 2) rest
  | 13 :: rest => ⟨start, position⟩ :: scanBytes (position + 1) (position + 1) rest
  | 10 :: rest => ⟨start, position⟩ :: scanBytes (position + 1) (position + 1) rest
  | _ :: rest => scanBytes start (position + 1) rest

/-- A byte below 128 is a character of its own. -/
theorem toNat_of_mem_utf8EncodeChar {c : Char} {byte : UInt8}
    (h : byte ∈ String.utf8EncodeChar c) (hlt : byte.toNat < 128) : c.toNat = byte.toNat := by
  have hcode : c.toNat = c.val.toNat := rfl
  simp only [String.utf8EncodeChar] at h
  split at h
  · rw [List.mem_singleton.1 h, UInt8.toNat_ofNat']
    omega
  · -- the bytes of a longer character have their highest bit set
    exfalso
    split at h
    · simp only [List.mem_cons, List.not_mem_nil, or_false] at h
      rcases h with rfl | rfl <;> rw [UInt8.toNat_ofNat'] at hlt <;> omega
    · split at h
      · simp only [List.mem_cons, List.not_mem_nil, or_false] at h
        rcases h with rfl | rfl | rfl <;> rw [UInt8.toNat_ofNat'] at hlt <;> omega
      · simp only [List.mem_cons, List.not_mem_nil, or_false] at h
        rcases h with rfl | rfl | rfl | rfl <;> rw [UInt8.toNat_ofNat'] at hlt <;> omega

theorem eq_return_of_mem {c : Char} (h : 13 ∈ String.utf8EncodeChar c) : c = '\r' :=
  Char.toNat_inj.1 (toNat_of_mem_utf8EncodeChar h (by decide))

theorem eq_feed_of_mem {c : Char} (h : 10 ∈ String.utf8EncodeChar c) : c = '\n' :=
  Char.toNat_inj.1 (toNat_of_mem_utf8EncodeChar h (by decide))

/-- No byte of a character that breaks no line is a carriage return or a line
feed. -/
theorem ne_of_mem_utf8EncodeChar {c : Char} (h : isLineBreak c = false) {byte : UInt8}
    (hbyte : byte ∈ String.utf8EncodeChar c) : byte ≠ 13 ∧ byte ≠ 10 := by
  constructor
  · intro hreturn
    rw [hreturn] at hbyte
    rw [eq_return_of_mem hbyte] at h
    cases h
  · intro hfeed
    rw [hfeed] at hbyte
    rw [eq_feed_of_mem hbyte] at h
    cases h

/-- Only a text that starts with a line feed starts with its byte. -/
theorem head?_of_utf8Bytes {source : List Char} {more : List UInt8}
    (h : utf8Bytes source = 10 :: more) : source.head? = some '\n' := by
  cases source with
  | nil => cases h
  | cons c cs =>
    rw [utf8Bytes, List.flatMap_cons] at h
    cases hbytes : String.utf8EncodeChar c with
    | nil =>
      have hlength := String.length_utf8EncodeChar c
      have hpos := c.utf8Size_pos
      rw [hbytes, List.length_nil] at hlength
      omega
    | cons first others =>
      rw [hbytes, List.cons_append] at h
      have hfirst : first = 10 := (List.cons.inj h).1
      have hmem : 10 ∈ String.utf8EncodeChar c := by simp [hbytes, hfirst]
      rw [eq_feed_of_mem hmem, List.head?_cons]

theorem scanBytes_cons {byte : UInt8} (hreturn : byte ≠ 13) (hfeed : byte ≠ 10)
    (start position : Nat) (rest : List UInt8) :
    scanBytes start position (byte :: rest) = scanBytes start (position + 1) rest := by
  rw [scanBytes]
  · exact fun _ h _ => hreturn h
  · exact hreturn
  · exact hfeed

theorem scanBytes_append {bytes : List UInt8} (h : ∀ byte ∈ bytes, byte ≠ 13 ∧ byte ≠ 10)
    (start position : Nat) (rest : List UInt8) :
    scanBytes start position (bytes ++ rest) = scanBytes start (position + bytes.length) rest := by
  induction bytes generalizing position with
  | nil => rfl
  | cons byte bytes ih =>
    obtain ⟨hbyte, hbytes⟩ := List.forall_mem_cons.1 h
    rw [List.cons_append, scanBytes_cons hbyte.1 hbyte.2, ih hbytes, List.length_cons]
    congr 1
    omega

theorem length_utf8Bytes (source : List Char) : (utf8Bytes source).length = utf8Length source := by
  induction source with
  | nil => rfl
  | cons c cs ih =>
    rw [utf8Bytes, List.flatMap_cons, List.length_append, String.length_utf8EncodeChar, utf8Length,
      ← ih]
    rfl

theorem utf8Bytes_append (xs ys : List Char) :
    utf8Bytes (xs ++ ys) = utf8Bytes xs ++ utf8Bytes ys :=
  List.flatMap_append

/-- Text without line breaks is passed over. -/
theorem scanBytes_text {text : List Char} (h : ∀ c ∈ text, isLineBreak c = false)
    (start position : Nat) (rest : List UInt8) :
    scanBytes start position (utf8Bytes text ++ rest)
      = scanBytes start (position + utf8Length text) rest := by
  rw [← length_utf8Bytes]
  apply scanBytes_append
  intro byte hbyte
  obtain ⟨c, hc, hbyte⟩ := List.mem_flatMap.1 hbyte
  exact ne_of_mem_utf8EncodeChar (h c hc) hbyte

/-- A line ending ends a range. -/
theorem scanBytes_ending {ending rest : List Char} (h : EndsLine ending rest)
    (start position : Nat) :
    scanBytes start position (utf8Bytes ending ++ utf8Bytes rest)
      = ⟨start, position⟩ :: scanBytes (position + utf8Length ending)
          (position + utf8Length ending) (utf8Bytes rest) := by
  obtain rfl | rfl | ⟨rfl, hhead⟩ := h
  · rfl
  · rfl
  · -- the carriage return is not followed by a line feed
    show scanBytes start position (13 :: utf8Bytes rest) = _
    rw [scanBytes]
    · rfl
    · intro more hmore
      exact hhead (head?_of_utf8Bytes hmore)

/-- Looking for lines byte by byte finds the same ranges. -/
theorem Lined.scanBytes_eq {source : List Char} {lines : List Line} (h : Lined source lines)
    (position : Nat) :
    scanBytes position position (utf8Bytes source) = spansFrom position lines := by
  induction h generalizing position with
  | @last text htext =>
    have htext := scanBytes_text htext position position []
    rw [List.append_nil] at htext
    rw [htext]
    rfl
  | @cons text ending rest lines htext hending _ ih =>
    rw [utf8Bytes_append, utf8Bytes_append, scanBytes_text htext, scanBytes_ending hending, ih,
      spansFrom, utf8Length_whole, Nat.add_assoc]

/-! ## Ranges and places -/

/-- The range of a line starts behind the lines in front of it. -/
theorem getElem?_spansFrom (front back : List Line) (line : Line) (start : Nat) :
    (spansFrom start (front ++ line :: back))[front.length]?
      = some ⟨start + utf8Length (front.flatMap Line.whole),
          start + utf8Length (front.flatMap Line.whole) + utf8Length line.text⟩ := by
  induction front generalizing start with
  | nil => rfl
  | cons first front ih =>
    rw [List.cons_append, spansFrom, List.length_cons, List.getElem?_cons_succ, ih,
      List.flatMap_cons, utf8Length_append, Nat.add_assoc start]

theorem utf8Length_take_lt {cs : List Char} {n : Nat} (h : n < cs.length) :
    utf8Length (cs.take n) < utf8Length cs := by
  have hsplit : utf8Length cs = utf8Length (cs.take n) + utf8Length (cs.drop n) := by
    rw [← utf8Length_append, List.take_append_drop]
  have hpos : utf8Length (cs.drop n) ≠ 0 := by
    intro hzero
    have hnil := congrArg List.length (utf8Length_eq_zero hzero)
    rw [List.length_drop, List.length_nil] at hnil
    omega
  omega

/-- One place comes before another by line and column. -/
def Location.Precedes (location later : Location) : Prop :=
  location.line < later.line ∨ (location.line = later.line ∧ location.column < later.column)

namespace Located

variable {source before after before' after' : List Char} {front back front' back' : List Line}
  {line line' : Line} {location later : Location}

theorem offset_eq (h : Located source before after front line back location) :
    location.offset = utf8Length (front.flatMap Line.whole)
      + utf8Length (line.whole.take (location.column - 1)) := by
  rw [h.offset, ← utf8Length_append]
  exact congrArg utf8Length h.piece

theorem lines_eq (h : Located source before after front line back location)
    (h' : Located source before' after' front' line' back' later) :
    front ++ line :: back = front' ++ line' :: back' := by
  rw [← linesOf_eq_iff.2 h.lines, ← linesOf_eq_iff.2 h'.lines]

/-- Places on one line are on the same line of the text. -/
theorem line_eq (h : Located source before after front line back location)
    (h' : Located source before' after' front' line' back' later)
    (hline : location.line = later.line) : front = front' ∧ line = line' := by
  have hlength : front.length = front'.length := by
    have hnumber := h.number
    have hnumber' := h'.number
    omega
  obtain ⟨hfront, hrest⟩ := List.append_inj (h.lines_eq h') hlength
  exact ⟨hfront, (List.cons.inj hrest).1⟩

/-- Line and column determine the offset. -/
theorem offset_inj (h : Located source before after front line back location)
    (h' : Located source before' after' front' line' back' later)
    (hline : location.line = later.line) (hcolumn : location.column = later.column) :
    location.offset = later.offset := by
  obtain ⟨hfront, hsame⟩ := h.line_eq h' hline
  rw [h.offset_eq, h'.offset_eq, hfront, hsame, hcolumn]

/-- A place on an earlier line has a smaller offset: its line ends before the other
one starts. -/
theorem offset_lt_of_line (h : Located source before after front line back location)
    (h' : Located source before' after' front' line' back' later)
    (hline : location.line < later.line) : location.offset < later.offset := by
  have hlines := h.lines_eq h'
  have hnumber := h.number
  have hnumber' := h'.number
  have hlength := congrArg List.length hlines
  simp only [List.length_append, List.length_cons] at hlength
  -- the lines in front of the later place include this one
  have hstart : front ++ [line] <+: front ++ line :: back := ⟨back, by simp⟩
  have hstart' : front' <+: front ++ line :: back := ⟨line' :: back', hlines.symm⟩
  obtain ⟨between, hfront⟩ : front ++ [line] <+: front' := by
    apply List.prefix_of_prefix_length_le hstart hstart'
    rw [List.length_append, List.length_singleton]
    omega
  -- and it is not the last one, so that the place is before its end
  have hinside : location.column - 1 < line.whole.length := by
    have hcolumn := h.column
    rcases h.belongs with hle | hnil
    · omega
    · rw [hnil, List.length_nil] at hlength
      omega
  have hpiece := utf8Length_take_lt hinside
  calc location.offset
      = utf8Length (front.flatMap Line.whole)
        + utf8Length (line.whole.take (location.column - 1)) := h.offset_eq
    _ < utf8Length (front.flatMap Line.whole) + utf8Length line.whole := by omega
    _ = utf8Length ((front ++ [line]).flatMap Line.whole) := by simp
    _ ≤ utf8Length (front'.flatMap Line.whole) := by
        simp only [← hfront, List.flatMap_append, utf8Length_append]
        omega
    _ ≤ later.offset := by
        rw [h'.offset_eq]
        omega

/-- On one line, a place in an earlier column has a smaller offset. -/
theorem offset_lt_of_column (h : Located source before after front line back location)
    (h' : Located source before' after' front' line' back' later)
    (hline : location.line = later.line) (hcolumn : location.column < later.column) :
    location.offset < later.offset := by
  obtain ⟨hfront, hsame⟩ := h.line_eq h' hline
  have hpos := h.column
  have hinside := h'.inside
  have hshort : location.column - 1 < (line'.whole.take (later.column - 1)).length := by
    rw [List.length_take]
    omega
  have hpiece := utf8Length_take_lt hshort
  rw [List.take_take, Nat.min_eq_left (by omega)] at hpiece
  rw [h.offset_eq, h'.offset_eq, hfront, hsame]
  omega

theorem offset_lt (h : Located source before after front line back location)
    (h' : Located source before' after' front' line' back' later)
    (hprecedes : location.Precedes later) : location.offset < later.offset := by
  rcases hprecedes with hline | ⟨hline, hcolumn⟩
  · exact h.offset_lt_of_line h' hline
  · exact h.offset_lt_of_column h' hline hcolumn

/-- Offsets are in order as lines and columns are. -/
theorem offset_lt_iff (h : Located source before after front line back location)
    (h' : Located source before' after' front' line' back' later) :
    location.offset < later.offset ↔ location.Precedes later := by
  refine ⟨?_, h.offset_lt h'⟩
  intro hlt
  by_contra hnot
  -- then the places are the same, or the other way round
  have hback : later.Precedes location ∨
      (location.line = later.line ∧ location.column = later.column) := by
    unfold Location.Precedes at *
    omega
  rcases hback with hback | ⟨hline, hcolumn⟩
  · have := h'.offset_lt h hback
    omega
  · have := h.offset_inj h' hline hcolumn
    omega

/-- The place, counted from the start of the range of its line. -/
theorem exists_span (h : Located source before after front line back location) :
    ∃ span ahead rest, (lineSpans source)[location.line - 1]? = some span ∧
      source = ahead ++ rest ∧ span.start = utf8Length ahead ∧
      location.column - 1 ≤ rest.length ∧
      span.start + utf8Length (rest.take (location.column - 1)) = location.offset := by
  have hinside : location.column - 1 ≤ line.whole.length := by
    have := h.inside
    omega
  have hindex : location.line - 1 = front.length := by
    have := h.number
    omega
  have hspan := getElem?_spansFrom front back line 0
  rw [Nat.zero_add, ← hindex, ← linesOf_eq_iff.2 h.lines] at hspan
  refine ⟨_, front.flatMap Line.whole, line.whole ++ back.flatMap Line.whole, hspan, ?_, rfl,
    ?_, ?_⟩
  · rw [← h.lines.flatMap_whole, List.flatMap_append, List.flatMap_cons]
  · rw [List.length_append]
    omega
  · rw [List.take_append_of_le_length hinside, h.offset_eq]

end Located

/-- **Lines and places are two views of one text.** The ranges of the lines tile the
text, with one line ending between any two of them, and are those found by looking
for endings byte by byte; none starts before the one in front of it has stopped. A
boundary of the text has a line and a column: going as many characters from the start
of the range of that line as the column says leads back to it. Offsets are in order
as their lines and columns are, so that no two have both in common. -/
theorem spans_and_places (source : List Char) :
    Tiles 0 source (lineSpans source) ∧
    scanBytes 0 0 (utf8Bytes source) = lineSpans source ∧
    ((lineSpans source).Pairwise fun span later => span.stop < later.start) ∧
    (∀ span ∈ lineSpans source, span.start ≤ span.stop ∧ span.stop ≤ utf8Length source) ∧
    (∀ offset, Boundary source offset →
      let location := Location.ofOffset source offset
      location.offset = offset ∧ 1 ≤ location.column ∧
      1 ≤ location.line ∧ location.line ≤ (lineSpans source).length ∧
      ∃ span ahead rest, (lineSpans source)[location.line - 1]? = some span ∧
        source = ahead ++ rest ∧ span.start = utf8Length ahead ∧
        location.column - 1 ≤ rest.length ∧
        span.start + utf8Length (rest.take (location.column - 1)) = offset) ∧
    (∀ offset other, Boundary source offset → Boundary source other →
      let location := Location.ofOffset source offset
      let later := Location.ofOffset source other
      (offset < other ↔ location.Precedes later) ∧
      (location.line = later.line → location.column = later.column → offset = other)) := by
  have hlined := lined_linesOf source
  have htiles : Tiles 0 source (lineSpans source) := hlined.tiles 0
  -- a boundary has a place
  have hlocated : ∀ offset, Boundary source offset →
      (Location.ofOffset source offset).offset = offset ∧ ∃ before after front line back,
        Located source before after front line back (Location.ofOffset source offset) := by
    intro offset hoffset
    obtain ⟨before, after, hsource, hbefore⟩ := hoffset.exists_append
    obtain ⟨front, line, back, h⟩ := exists_located hsource
    rw [← hbefore] at h
    exact ⟨h.offset.trans hbefore.symm, before, after, front, line, back, h⟩
  refine ⟨htiles, hlined.scanBytes_eq 0, htiles.pairwise, ?_, ?_, ?_⟩
  · intro span hspan
    have := htiles.within span hspan
    omega
  · intro offset hoffset location
    obtain ⟨heq, before, after, front, line, back, h⟩ := hlocated offset hoffset
    have hnumber := h.number
    obtain ⟨span, ahead, rest, hspan, hsource, hstart, hlength, hcount⟩ := h.exists_span
    have hle := (List.getElem?_eq_some_iff.1 hspan).1
    refine ⟨heq, h.column, ?_, ?_, span, ahead, rest, hspan, hsource, hstart, hlength, ?_⟩
    · show 1 ≤ (Location.ofOffset source offset).line
      omega
    · show (Location.ofOffset source offset).line ≤ _
      omega
    · rw [hcount, heq]
  · intro offset other hoffset hother location later
    obtain ⟨heq, before, after, front, line, back, h⟩ := hlocated offset hoffset
    obtain ⟨heq', before', after', front', line', back', h'⟩ := hlocated other hother
    have hiff := h.offset_lt_iff h'
    rw [heq, heq'] at hiff
    refine ⟨hiff, ?_⟩
    intro hline hcolumn
    calc offset = location.offset := heq.symm
      _ = later.offset := h.offset_inj h' hline hcolumn
      _ = other := heq'

-- all three endings, a character of two bytes and an empty line at the end
example : lineSpans ['a', '\r', '\n', '\r', 'β', '\n'] = [⟨0, 1⟩, ⟨3, 3⟩, ⟨4, 6⟩, ⟨7, 7⟩] := by
  decide

end LatexFormatter
