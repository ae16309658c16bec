import LatexFormatter.Proofs.Grammar.Places

/-
  Lines and places. `Lined` says what it means for a text to be cut into lines,
  without saying how to find them; `linesOf_eq_iff` says that there is one way
  to do it and that `linesOf` finds it. A place of the text is then known by its
  line and its column as well as by its offset (`Location.ofOffset_eq`).
-/

namespace LatexFormatter

/-! ## Cutting a text into lines -/

/-- The characters end a line if `rest` comes next: a carriage return and line
feed pair is not taken apart. -/
def EndsLine (ending rest : List Char) : Prop :=
  ending = ['\r', '\n'] ∨ ending = ['\n'] ∨ (ending = ['\r'] ∧ rest.head? ≠ some '\n')

/-- The text is made up of these lines. Every line but the last has an ending, and
line breaks occur in endings only. -/
inductive Lined : List Char → List Line → Prop
  | last {text : List Char} (h : ∀ c ∈ text, isLineBreak c = false) : Lined text [⟨text, []⟩]
  | cons {text ending rest : List Char} {lines : List Line}
      (h : ∀ c ∈ text, isLineBreak c = false) (hending : EndsLine ending rest)
      (hrest : Lined rest lines) : Lined (text ++ (ending ++ rest)) (⟨text, ending⟩ :: lines)

/-- The lines make up the text. -/
theorem Lined.flatMap_whole {source : List Char} {lines : List Line} (h : Lined source lines) :
    lines.flatMap Line.whole = source := by
  induction h with
  | last => simp [Line.whole]
  | cons _ _ _ ih => simp [Line.whole, ih]

/-- A character that ends no line belongs to the first one. -/
theorem Lined.addToFirst {rest : List Char} {lines : List Line} {c : Char}
    (hc : isLineBreak c = false) (h : Lined rest lines) :
    Lined (c :: rest) (addToFirst c lines) := by
  cases h with
  | last htext => exact .last (List.forall_mem_cons.2 ⟨hc, htext⟩)
  | @cons text ending rest lines htext hending hrest =>
    have hfirst : ∀ d ∈ c :: text, isLineBreak d = false := List.forall_mem_cons.2 ⟨hc, htext⟩
    exact .cons hfirst hending hrest

/-- An ending where a line starts makes an empty line. -/
theorem Lined.empty {ending rest : List Char} {lines : List Line} (h : Lined rest lines)
    (hending : EndsLine ending rest) : Lined (ending ++ rest) (⟨[], ending⟩ :: lines) := by
  have hnone : ∀ c ∈ ([] : List Char), isLineBreak c = false := by simp
  exact .cons hnone hending h

theorem lined_linesOf (source : List Char) : Lined source (linesOf source) := by
  fun_induction linesOf source with
  | case1 => exact .last (by simp)
  | case2 rest ih => exact ih.empty (Or.inl rfl)
  | case3 rest hpair ih =>
    refine ih.empty (Or.inr (Or.inr ⟨rfl, ?_⟩))
    intro hhead
    obtain ⟨more, rfl⟩ := List.head?_eq_some_iff.1 hhead
    exact hpair more rfl
  | case4 rest ih => exact ih.empty (Or.inr (Or.inl rfl))
  | case5 c rest hpair hreturn hfeed ih =>
    refine ih.addToFirst ?_
    simp only [isLineBreak, Bool.or_eq_false_iff, beq_eq_false_iff_ne]
    exact ⟨hfeed, hreturn⟩

theorem linesOf_cons {c : Char} (hc : isLineBreak c = false) (rest : List Char) :
    linesOf (c :: rest) = addToFirst c (linesOf rest) := by
  simp only [isLineBreak, Bool.or_eq_false_iff, beq_eq_false_iff_ne] at hc
  rw [linesOf]
  · exact fun _ h _ => hc.2 h
  · exact hc.2
  · exact hc.1

theorem linesOf_text {text : List Char} (h : ∀ c ∈ text, isLineBreak c = false) :
    linesOf text = [⟨text, []⟩] := by
  induction text with
  | nil => rfl
  | cons c cs ih =>
    rw [linesOf_cons (h c (by simp)), ih fun d hd => h d (List.mem_cons_of_mem c hd)]
    rfl

theorem linesOf_ending {ending rest : List Char} (h : EndsLine ending rest) :
    linesOf (ending ++ rest) = ⟨[], ending⟩ :: linesOf rest := by
  rcases h with rfl | rfl | ⟨rfl, hhead⟩
  · rfl
  · rfl
  · show linesOf ('\r' :: rest) = _
    rw [linesOf]
    rintro more rfl
    exact hhead rfl

theorem linesOf_append {text ending rest : List Char}
    (h : ∀ c ∈ text, isLineBreak c = false) (hending : EndsLine ending rest) :
    linesOf (text ++ (ending ++ rest)) = ⟨text, ending⟩ :: linesOf rest := by
  induction text with
  | nil => exact linesOf_ending hending
  | cons c cs ih =>
    rw [List.cons_append, linesOf_cons (h c (by simp)),
      ih fun d hd => h d (List.mem_cons_of_mem c hd)]
    rfl

/-- A text can be cut into lines in one way only. -/
theorem linesOf_eq_iff {source : List Char} {lines : List Line} :
    linesOf source = lines ↔ Lined source lines := by
  constructor
  · rintro rfl
    exact lined_linesOf source
  · intro h
    induction h with
    | last htext => exact linesOf_text htext
    | cons htext hending _ ih => rw [linesOf_append htext hending, ih]

/-! ## Places by line and column -/

namespace Location

/-- As many characters lie within the bytes of a piece as the piece has. -/
theorem charsWithin_append (piece rest : List Char) :
    charsWithin (utf8Length piece) (piece ++ rest) = piece.length := by
  induction piece with
  | nil =>
    cases rest with
    | nil => rfl
    | cons c cs =>
      have hpos := c.utf8Size_pos
      have hlong : ¬ c.utf8Size ≤ 0 := by omega
      simp [charsWithin, utf8Length, hlong]
  | cons c cs ih =>
    have hle : c.utf8Size ≤ c.utf8Size + utf8Length cs := by omega
    simp [charsWithin, utf8Length, hle, ih]

/-- The search ends on the line that the offset lies on. A place between two lines
belongs to the second. -/
theorem search_eq {front back : List Line} {line : Line} {piece rest : List Char}
    (hpiece : line.whole = piece ++ rest) (hrest : rest ≠ [] ∨ back = []) (number start : Nat) :
    search (start + utf8Length (front.flatMap Line.whole ++ piece)) number start
        (front ++ line :: back)
      = ⟨start + utf8Length (front.flatMap Line.whole ++ piece), number + front.length,
          piece.length + 1⟩ := by
  induction front generalizing number start with
  | nil =>
    have hcolumn : charsWithin (utf8Length piece) line.whole = piece.length := by
      rw [hpiece, charsWithin_append]
    cases back with
    | nil => simp [search, hcolumn]
    | cons next back =>
      have hshort : ¬ start + utf8Length line.whole ≤ start + utf8Length piece := by
        have hpos : utf8Length rest ≠ 0 := by
          intro h
          simp [utf8Length_eq_zero h] at hrest
        rw [hpiece, utf8Length_append]
        omega
      simp [search, hshort, hcolumn]
  | cons first front ih =>
    have hnext : start + utf8Length first.whole
        ≤ start + utf8Length ((first :: front).flatMap Line.whole ++ piece) := by
      simp only [List.flatMap_cons, List.append_assoc, utf8Length_append]
      omega
    have hsame : start + utf8Length ((first :: front).flatMap Line.whole ++ piece)
        = start + utf8Length first.whole + utf8Length (front.flatMap Line.whole ++ piece) := by
      simp only [List.flatMap_cons, List.append_assoc, utf8Length_append]
      omega
    obtain ⟨second, more, hmore⟩ : ∃ second more, front ++ line :: back = second :: more :=
      List.exists_cons_of_ne_nil (by simp)
    rw [List.cons_append, hmore, search]
    simp only [hnext, if_true]
    rw [← hmore, hsame, ih, List.length_cons, Nat.add_assoc number, Nat.add_comm 1]

/-- The place of an offset, given the lines before it and the piece of its own line
before it. -/
theorem ofOffset_eq {source : List Char} {front back : List Line} {line : Line}
    {piece rest : List Char} (h : Lined source (front ++ line :: back))
    (hpiece : line.whole = piece ++ rest) (hrest : rest ≠ [] ∨ back = []) :
    ofOffset source (utf8Length (front.flatMap Line.whole ++ piece))
      = ⟨utf8Length (front.flatMap Line.whole ++ piece), front.length + 1, piece.length + 1⟩ := by
  have hsource :
      source = front.flatMap Line.whole ++ piece ++ (rest ++ back.flatMap Line.whole) := by
    rw [← h.flatMap_whole]
    simp [hpiece]
  have hle : utf8Length (front.flatMap Line.whole ++ piece) ≤ utf8Length source := by
    rw [hsource, utf8Length_append _ (rest ++ _)]
    omega
  have hsearch := @search_eq front back line piece rest hpiece hrest 1 0
  rw [ofOffset, Nat.min_eq_left hle, linesOf_eq_iff.2 h]
  simpa [Nat.add_comm] using hsearch

end Location

/-- A place in lines put one after the other lies on one of them. A place between
two lines belongs to the second. -/
theorem exists_line_of_append {lines : List Line} {before after : List Char} (hne : lines ≠ [])
    (h : lines.flatMap Line.whole = before ++ after) :
    ∃ front line back piece rest, lines = front ++ line :: back ∧ line.whole = piece ++ rest ∧
      before = front.flatMap Line.whole ++ piece ∧ (rest ≠ [] ∨ back = []) := by
  induction lines generalizing before with
  | nil => exact absurd rfl hne
  | cons first others ih =>
    cases others with
    | nil => exact ⟨[], first, [], before, after, rfl, by simpa using h, rfl, Or.inr rfl⟩
    | cons second others =>
      rw [List.flatMap_cons] at h
      rcases List.append_eq_append_iff.1 h with ⟨more, rfl, hmore⟩ | ⟨rest, hfirst, -⟩
      · -- past the first line
        obtain ⟨front, line, back, piece, rest, hlines, hline, hmid, hrest⟩ :=
          ih (List.cons_ne_nil _ _) hmore
        refine ⟨first :: front, line, back, piece, rest, ?_, hline, ?_, hrest⟩
        · rw [hlines, List.cons_append]
        · rw [hmid, List.flatMap_cons, List.append_assoc]
      · cases rest with
        | cons c cs =>
          exact ⟨[], first, second :: others, before, c :: cs, rfl, hfirst, rfl,
            Or.inl (List.cons_ne_nil _ _)⟩
        | nil =>
          -- right behind the first line
          obtain ⟨front, line, back, piece, rest, hlines, hline, hmid, hrest⟩ :=
            @ih [] (List.cons_ne_nil _ _) (by simpa [hfirst] using h)
          refine ⟨first :: front, line, back, piece, rest, ?_, hline, ?_, hrest⟩
          · rw [hlines, List.cons_append]
          · rw [List.flatMap_cons, List.append_assoc, ← hmid]
            simpa using hfirst.symm

theorem Lined.ne_nil {source : List Char} {lines : List Line} (h : Lined source lines) :
    lines ≠ [] := by
  cases h with
  | last => exact List.cons_ne_nil _ _
  | cons => exact List.cons_ne_nil _ _

end LatexFormatter
