import LatexFormatter.Proofs.Grammar.Progress

/-
  The lengths of what stands at the head of a text, when it is known what comes
  after it. A length depends on a text only as far as it reaches: behind a text
  that cannot continue what was measured, anything may follow. So the length of
  a word, of a command's name, of a stretch of blanks or of literal material is
  found from what was written, whatever it is followed by.
-/

namespace LatexFormatter

/-! ## What cannot continue a word -/

/-- The text is empty or starts with a character that has a meaning of its own. -/
def Sealed (cs : List Char) : Prop := ∀ c ∈ cs.head?, isSpecial c = true

theorem sealed_nil : Sealed [] := by simp [Sealed]

theorem sealed_cons {c : Char} {cs : List Char} (h : isSpecial c = true) : Sealed (c :: cs) := by
  simpa [Sealed] using h

theorem isSpecial_iff {c : Char} :
    isSpecial c = true ↔ c = '\\' ∨ c = '%' ∨ c = '{' ∨ c = '}' ∨ c = '$' ∨ c = '&' ∨ c = '#' ∨
      c = '^' ∨ c = '_' ∨ c = '\x00' ∨ c = ' ' ∨ c = '\t' ∨ c = '\n' ∨ c = '\r' := by
  simp [isSpecial, specialChars]

theorem isSpecial_of_isBlank {c : Char} (h : isBlank c = true) : isSpecial c = true := by
  rcases isBlank_iff.1 h with (rfl | rfl) | rfl | rfl <;> decide

/-- A special character is part of no word, no number and no name. -/
theorem of_isSpecial {c : Char} (h : isSpecial c = true) :
    isPlain c = false ∧ isDigit c = false ∧ isLetter c = false ∧ c ≠ '.' := by
  rcases isSpecial_iff.1 h with
    rfl | rfl | rfl | rfl | rfl | rfl | rfl | rfl | rfl | rfl | rfl | rfl | rfl | rfl <;> decide

/-- No character of a word is special. -/
theorem isSpecial_of_word {c : Char} (h : isPlain c = true ∨ isPunctuation c = true) :
    isSpecial c = false := by
  have hnone : punctuation.any isSpecial = false := rfl
  rcases h with h | h
  · simp only [isPlain, Bool.and_eq_true, Bool.not_eq_true'] at h
    exact h.1
  · simpa using List.any_eq_false.1 hnone c (List.contains_iff_mem.1 h)

/-! ## Runs -/

theorem runLength_append {p : Char → Bool} {xs ys : List Char}
    (h : ∀ c ∈ ys.head?, p c = false) : runLength p (xs ++ ys) = runLength p xs := by
  induction xs with
  | nil =>
    cases ys with
    | nil => rfl
    | cons y ys => simp [runLength, h y (by simp)]
  | cons x xs ih =>
    simp only [runLength, List.cons_append, List.takeWhile_cons] at ih ⊢
    split
    · simpa using ih
    · rfl

theorem runLength_of_all {p : Char → Bool} {xs : List Char} (h : ∀ c ∈ xs, p c = true) :
    runLength p xs = xs.length := by
  rw [runLength, List.takeWhile_eq_self_iff.2 h]

theorem runLength_all_append {p : Char → Bool} {xs ys : List Char} (hx : ∀ c ∈ xs, p c = true)
    (hy : ∀ c ∈ ys.head?, p c = false) : runLength p (xs ++ ys) = xs.length := by
  rw [runLength_append hy, runLength_of_all hx]

theorem dropWhile_of_head {p : Char → Bool} {xs : List Char} (h : ∀ c ∈ xs.head?, p c = false) :
    xs.dropWhile p = xs := by
  cases xs with
  | nil => rfl
  | cons x xs => simp [h x (by simp)]

theorem mem_head?_append {xs ys : List Char} {c : Char} (h : c ∈ (xs ++ ys).head?) :
    c ∈ xs.head? ∨ c ∈ ys.head? := by
  cases xs with
  | nil => exact Or.inr h
  | cons x xs => exact Or.inl h

/-! ## Words -/

/-- How many characters the word at the head of a text has: a number, a
punctuation character, or as many plain characters as there are. -/
def wordLength (cs : List Char) : Nat :=
  if numberLength cs = 0 then
    match cs with
    | [] => 0
    | c :: _ => if isPunctuation c then 1 else runLength isPlain cs
  else numberLength cs

theorem isPlain_of_isDigit {c : Char} (h : isDigit c = true) : isPlain c = true := by
  have hspecial : isSpecial c = false := by
    rw [Bool.eq_false_iff]
    intro hs
    rw [(of_isSpecial hs).2.1] at h
    cases h
  have hpunctuation : isPunctuation c = false := by
    rw [Bool.eq_false_iff]
    intro hp
    have hnone : punctuation.any isDigit = false := rfl
    exact List.any_eq_false.1 hnone c (List.contains_iff_mem.1 hp) h
  simp [isPlain, hspecial, hpunctuation]

/-- A word is made of plain characters, or it is a punctuation character. -/
theorem word_of_mem_take {cs : List Char} {c : Char} (h : c ∈ cs.take (wordLength cs)) :
    isPlain c = true ∨ isPunctuation c = true := by
  unfold wordLength at h
  split at h
  · cases cs with
    | nil => simp at h
    | cons d more =>
      dsimp only at h
      split at h
      · next hp =>
        obtain rfl : c = d := by simpa using h
        exact Or.inr hp
      · rw [take_runLength] at h
        exact Or.inl (List.mem_takeWhile_imp h)
  · rcases isDigit_of_mem_number h with hc | rfl
    · exact Or.inl (isPlain_of_isDigit hc)
    · exact Or.inr (by decide)

theorem numberLength_append {xs ys : List Char} (h : Sealed ys) :
    numberLength (xs ++ ys) = numberLength xs := by
  have hd : ∀ c ∈ ys.head?, isDigit c = false := fun c hc => (of_isSpecial (h c hc)).2.1
  have hle := runLength_le isDigit xs
  simp only [numberLength]
  rw [runLength_append hd, List.drop_append_of_le_length hle]
  cases hx : xs.drop (runLength isDigit xs) with
  | nil =>
    -- all of `xs` is digits, and no point follows
    cases ys with
    | nil => rfl
    | cons y ys =>
      have hy : y ≠ '.' := (of_isSpecial (h y (by simp))).2.2.2
      simp [hy]
  | cons c rest =>
    by_cases hc : c = '.'
    · subst hc
      simp only [List.cons_append]
      rw [runLength_append hd]
    · simp [hc]

theorem wordLength_append {xs ys : List Char} (hx : xs ≠ []) (h : Sealed ys) :
    wordLength (xs ++ ys) = wordLength xs := by
  have hp : ∀ c ∈ ys.head?, isPlain c = false := fun c hc => (of_isSpecial (h c hc)).1
  obtain ⟨c, rest, rfl⟩ := List.exists_cons_of_ne_nil hx
  have hn : numberLength (c :: rest ++ ys) = numberLength (c :: rest) := numberLength_append h
  have hr : runLength isPlain (c :: rest ++ ys) = runLength isPlain (c :: rest) :=
    runLength_append hp
  rw [List.cons_append] at hn hr ⊢
  simp only [wordLength, hn, hr]

/-- A word has at least one character. -/
theorem wordLength_pos {c : Char} {cs : List Char} (h : isPlain c = true ∨ isPunctuation c = true) :
    0 < wordLength (c :: cs) := by
  unfold wordLength
  split
  · dsimp only
    split
    · omega
    · next hc =>
      have hplain : isPlain c = true := by
        rcases h with h | h
        · exact h
        · exact absurd h hc
      simp [runLength, hplain]
  · omega

theorem numberLength_le (cs : List Char) : numberLength cs ≤ cs.length := by
  simp only [numberLength]
  split
  · next rest hdrop =>
    have hlength := congrArg List.length hdrop
    have hrest := runLength_le isDigit rest
    simp only [List.length_drop, List.length_cons] at hlength
    split
    · omega
    · omega
  · omega

theorem wordLength_le (cs : List Char) : wordLength cs ≤ cs.length := by
  unfold wordLength
  split
  · split
    · omega
    · split
      · simp
      · exact runLength_le _ _
  · exact numberLength_le cs

/-! ## Blanks -/

theorem countLineEndings_cons {c : Char} (cs : List Char) (h : isLineBreak c = false) :
    countLineEndings (c :: cs) = countLineEndings cs := by
  have hn : c ≠ '\n' := by rintro rfl; simp [isLineBreak] at h
  have hr : c ≠ '\r' := by rintro rfl; simp [isLineBreak] at h
  rw [countLineEndings]
  · simp [hr]
  · exact hr
  · exact hn

theorem lineEndingLength_pos {c : Char} (cs : List Char) (h : isLineBreak c = true) :
    0 < lineEndingLength (c :: cs) := by
  simp only [isLineBreak, Bool.or_eq_true, beq_iff_eq] at h
  rcases h with rfl | rfl
  · simp [lineEndingLength]
  · cases cs with
    | nil => simp [lineEndingLength]
    | cons d cs => by_cases hd : d = '\n' <;> simp [lineEndingLength, hd]

/-- A line ending at the head of a text is one of its line endings. -/
theorem countLineEndings_drop {c : Char} (cs : List Char) (h : isLineBreak c = true) :
    countLineEndings (c :: cs)
      = countLineEndings ((c :: cs).drop (lineEndingLength (c :: cs))) + 1 := by
  simp only [isLineBreak, Bool.or_eq_true, beq_iff_eq] at h
  rcases h with rfl | rfl
  · simp [countLineEndings, lineEndingLength]
  · cases cs with
    | nil => simp [countLineEndings, lineEndingLength]
    | cons d cs => by_cases hd : d = '\n' <;> simp [countLineEndings, lineEndingLength, hd]

theorem lineEndingLength_append {c : Char} (cs : List Char) {text : List Char}
    (hc : isLineBreak c = true) (h : ∀ c ∈ text.head?, isBlank c = false) :
    lineEndingLength (c :: cs ++ text) = lineEndingLength (c :: cs) := by
  simp only [isLineBreak, Bool.or_eq_true, beq_iff_eq] at hc
  rcases hc with rfl | rfl
  · simp [lineEndingLength]
  · cases cs with
    | cons d cs => by_cases hd : d = '\n' <;> simp [lineEndingLength, hd]
    | nil =>
      cases text with
      | nil => rfl
      | cons t text =>
        have ht : t ≠ '\n' := by
          rintro rfl
          have := h '\n' (by simp)
          simp [isBlank, isLineBreak] at this
        simp [lineEndingLength, ht]

theorem lineEndingLength_le (cs : List Char) : lineEndingLength cs ≤ cs.length := by
  unfold lineEndingLength
  split <;> simp

theorem countLineEndings_spaces_append {xs : List Char} (ys : List Char)
    (h : ∀ c ∈ xs, isSpace c = true) : countLineEndings (xs ++ ys) = countLineEndings ys := by
  induction xs with
  | nil => rfl
  | cons x xs ih =>
    have hx : isLineBreak x = false := by
      have hspace := h x (by simp)
      simp only [isSpace, Bool.or_eq_true, beq_iff_eq] at hspace
      rcases hspace with rfl | rfl <;> decide
    rw [List.cons_append, countLineEndings_cons _ hx]
    exact ih fun c hc => h c (by simp [hc])

/-- Blanks without a line ending are spaces. -/
theorem isSpace_of_countLineEndings {xs : List Char} (hb : ∀ c ∈ xs, isBlank c = true)
    (h : countLineEndings xs = 0) : ∀ c ∈ xs, isSpace c = true := by
  induction xs with
  | nil => simp
  | cons x xs ih =>
    have hx : isLineBreak x = false := by
      cases hx : isLineBreak x with
      | false => rfl
      | true =>
        rw [countLineEndings_drop xs hx] at h
        omega
    rw [countLineEndings_cons _ hx] at h
    intro c hc
    rcases List.mem_cons.1 hc with rfl | hc
    · have := hb c (by simp)
      simpa [isBlank, hx] using this
    · exact ih (fun c hc => hb c (by simp [hc])) h c hc

theorem lineEndingLength_of_head {cs : List Char} (h : ∀ c ∈ cs.head?, isBlank c = false) :
    lineEndingLength cs = 0 := by
  cases cs with
  | nil => rfl
  | cons c cs =>
    have hc := h c (by simp)
    have hn : c ≠ '\n' := by rintro rfl; simp [isBlank, isLineBreak] at hc
    have hr : c ≠ '\r' := by rintro rfl; simp [isBlank, isLineBreak] at hc
    simp [lineEndingLength, hn, hr]

theorem isSpace_of_isBlank_eq_false {c : Char} (h : isBlank c = false) : isSpace c = false := by
  simp only [isBlank, Bool.or_eq_false_iff] at h
  exact h.1

theorem isSpace_of_isLetter {c : Char} (h : isLetter c = true) : isSpace c = false := by
  cases hs : isSpace c with
  | false => rfl
  | true =>
    simp only [isSpace, Bool.or_eq_true, beq_iff_eq] at hs
    rcases hs with rfl | rfl <;> exact absurd h (by decide)

theorem spaceLength_le (cs : List Char) : spaceLength cs ≤ cs.length := runLength_le _ cs

-- what is measured of blanks does not depend on what stands behind them
section Apart

variable (cs : List Char) {text : List Char} (ht : ∀ c ∈ text.head?, isBlank c = false)

include ht

theorem spaceLength_append : spaceLength (cs ++ text) = spaceLength cs :=
  runLength_append fun c hc => isSpace_of_isBlank_eq_false (ht c hc)

theorem lineEndingLength_append_of_head : lineEndingLength (cs ++ text) = lineEndingLength cs := by
  cases cs with
  | nil => exact lineEndingLength_of_head ht
  | cons c cs =>
    cases hc : isLineBreak c with
    | true => exact lineEndingLength_append cs hc ht
    | false =>
      have hn : c ≠ '\n' := by rintro rfl; simp [isLineBreak] at hc
      have hr : c ≠ '\r' := by rintro rfl; simp [isLineBreak] at hc
      simp [lineEndingLength, hn, hr]

/-- A line ending with the spaces around it. -/
theorem aroundLength_append :
    lineEndingLength ((cs ++ text).drop (spaceLength cs))
        = lineEndingLength (cs.drop (spaceLength cs)) ∧
      spaceLength ((cs ++ text).drop
          (spaceLength cs + lineEndingLength (cs.drop (spaceLength cs))))
        = spaceLength (cs.drop (spaceLength cs + lineEndingLength (cs.drop (spaceLength cs)))) ∧
      spaceLength cs + lineEndingLength (cs.drop (spaceLength cs))
        + spaceLength (cs.drop (spaceLength cs + lineEndingLength (cs.drop (spaceLength cs))))
        ≤ cs.length := by
  have hspaces := spaceLength_le cs
  have hending := lineEndingLength_le (cs.drop (spaceLength cs))
  have hmore := spaceLength_le (cs.drop (spaceLength cs
    + lineEndingLength (cs.drop (spaceLength cs))))
  rw [List.length_drop] at hending hmore
  refine ⟨?_, ?_, by omega⟩
  · rw [List.drop_append_of_le_length hspaces, lineEndingLength_append_of_head _ ht]
  · rw [List.drop_append_of_le_length (by omega), spaceLength_append _ ht]

theorem whitespaceLength_append_of_head : whitespaceLength (cs ++ text) = whitespaceLength cs := by
  obtain ⟨hending, hspaces, -⟩ := aroundLength_append cs ht
  simp only [whitespaceLength, spaceLength_append cs ht, hending, hspaces]

theorem parbreakLength_append_of_head : parbreakLength (cs ++ text) = parbreakLength cs := by
  have hrun : runLength isBlank (cs ++ text) = runLength isBlank cs := runLength_append ht
  have htake : (cs ++ text).takeWhile isBlank = cs.takeWhile isBlank := by
    rw [← take_runLength, ← take_runLength, hrun,
      List.take_append_of_le_length (runLength_le isBlank cs)]
  simp only [parbreakLength, blankLength, htake, hrun]

/-- Behind the blanks at the head stands what stood there, or else what was put behind. -/
theorem mem_head?_dropWhile_append {c : Char}
    (h : c ∈ ((cs ++ text).dropWhile isBlank).head?) :
    c ∈ (cs.dropWhile isBlank).head? ∨ c ∈ text.head? := by
  rw [List.dropWhile_append] at h
  split at h
  · rw [dropWhile_of_head ht] at h
    exact Or.inr h
  · exact mem_head?_append h

end Apart

theorem whitespaceLength_le (cs : List Char) : whitespaceLength cs ≤ cs.length := by
  obtain ⟨-, -, hle⟩ := aroundLength_append cs (show ∀ c ∈ [].head?, isBlank c = false by simp)
  unfold whitespaceLength
  dsimp only
  split
  · exact spaceLength_le cs
  · exact hle

theorem whitespaceLength_pos {c : Char} {cs : List Char} (h : isBlank c = true) :
    0 < whitespaceLength (c :: cs) := by
  unfold whitespaceLength
  cases hc : isSpace c with
  | true =>
    have hspaces : 0 < spaceLength (c :: cs) := by simp [spaceLength, runLength, hc]
    dsimp only
    split <;> omega
  | false =>
    have hnone : spaceLength (c :: cs) = 0 := by simp [spaceLength, runLength, hc]
    have hpos := lineEndingLength_pos cs (by simpa [isBlank, hc] using h)
    rw [hnone]
    dsimp only
    rw [List.drop_zero, if_neg (by simp; omega)]
    omega

/-- A list splits where a property ends for the first time. -/
theorem exists_run {α : Type} (p : α → Bool) (xs : List α) :
    ∃ run rest, xs = run ++ rest ∧ (∀ x ∈ run, p x = true) ∧ ∀ x ∈ rest.head?, p x = false := by
  refine ⟨xs.takeWhile p, xs.dropWhile p, ?_, ?_, ?_⟩
  · exact (List.takeWhile_append_dropWhile).symm
  · exact fun x hx => List.mem_takeWhile_imp hx
  · intro x hx
    have hhead := List.head?_dropWhile_not p xs
    rw [Option.mem_def.1 hx] at hhead
    simpa using hhead

section Blanks

variable {blanks text : List Char} (hb : ∀ c ∈ blanks, isBlank c = true)
  (ht : ∀ c ∈ text.head?, isBlank c = false)

include hb ht

theorem blankLength_append : blankLength (blanks ++ text) = blanks.length :=
  runLength_all_append hb ht

theorem parbreakLength_append :
    parbreakLength (blanks ++ text)
      = if 2 ≤ countLineEndings blanks then blanks.length else 0 := by
  have htake : (blanks ++ text).takeWhile isBlank = blanks := by
    rw [← take_runLength, runLength_all_append hb ht]
    simp
  simp only [parbreakLength, htake, blankLength_append hb ht]

/-- A stretch of blanks with at most one line ending is white space as a
whole. -/
theorem whitespaceLength_append (h : countLineEndings blanks < 2) :
    whitespaceLength (blanks ++ text) = blanks.length := by
  have hts : ∀ c ∈ text.head?, isSpace c = false := fun c hc =>
    isSpace_of_isBlank_eq_false (ht c hc)
  obtain ⟨spaces, rest, rfl, hs, hr⟩ := exists_run isSpace blanks
  rw [countLineEndings_spaces_append rest hs] at h
  have hrb : ∀ c ∈ rest, isBlank c = true := fun c hc => hb c (by simp [hc])
  have hlen : spaceLength (spaces ++ rest ++ text) = spaces.length := by
    rw [List.append_assoc]
    apply runLength_all_append hs
    cases rest with
    | nil => exact hts
    | cons c rest => exact hr
  -- what follows the one line ending is spaces only
  have hafter : ∀ more, (∀ c ∈ more, isBlank c = true) → countLineEndings more = 0 →
      spaceLength (more ++ text) = more.length := fun more hmore hcount =>
    runLength_all_append (isSpace_of_countLineEndings hmore hcount) hts
  simp only [whitespaceLength, hlen]
  rw [List.append_assoc, ← List.drop_drop, List.drop_left]
  cases rest with
  | nil => simp [lineEndingLength_of_head ht]
  | cons c rest =>
    have hbreak : isLineBreak c = true := by
      have hc := hrb c (by simp)
      simpa [isBlank, hr c (by simp)] using hc
    have hpos := lineEndingLength_pos rest hbreak
    rw [countLineEndings_drop rest hbreak] at h
    rw [lineEndingLength_append rest hbreak ht, if_neg (by simp; omega)]
    generalize hending : lineEndingLength (c :: rest) = ending at h hpos ⊢
    have hle : ending ≤ (c :: rest).length := hending ▸ lineEndingLength_le _
    have hmore : ∀ d ∈ (c :: rest).drop ending, isBlank d = true :=
      fun d hd => hrb d (List.mem_of_mem_drop hd)
    rw [List.drop_append_of_le_length hle, hafter _ hmore (by omega)]
    simp only [List.length_drop, List.length_append]
    omega

end Blanks

/-! ## Line endings -/

/-- One line ending, and the margin of the next line. -/
def IsLine (blanks : List Char) : Prop :=
  ∃ margin, blanks = '\n' :: margin ∧ ∀ c ∈ margin, isSpace c = true

/-- Two line endings or more, and blanks around them. -/
def IsLines (blanks : List Char) : Prop :=
  ∃ more, blanks = '\n' :: more ∧ (∀ c ∈ more, isBlank c = true) ∧ '\n' ∈ more

theorem IsLine.isBlank {blanks : List Char} (h : IsLine blanks) :
    ∀ c ∈ blanks, isBlank c = true := by
  obtain ⟨margin, rfl, hmargin⟩ := h
  intro c hc
  rcases List.mem_cons.1 hc with rfl | hc
  · rfl
  · simp [LatexFormatter.isBlank, hmargin c hc]

theorem IsLines.isBlank {blanks : List Char} (h : IsLines blanks) :
    ∀ c ∈ blanks, isBlank c = true := by
  obtain ⟨more, rfl, hmore, -⟩ := h
  intro c hc
  rcases List.mem_cons.1 hc with rfl | hc
  · rfl
  · exact hmore c hc

theorem one_le_countLineEndings {blanks : List Char} (h : '\n' ∈ blanks) :
    1 ≤ countLineEndings blanks := by
  induction blanks using countLineEndings.induct with
  | case1 => simp at h
  | case2 | case3 | case4 => simp [countLineEndings]
  | case5 c rest hcr hr hn ih =>
    rw [countLineEndings.eq_5 c rest hcr hr hn]
    exact ih ((List.mem_cons.1 h).resolve_left (Ne.symm hn))

theorem IsLine.countLineEndings {blanks : List Char} (h : IsLine blanks) :
    countLineEndings blanks = 1 := by
  obtain ⟨margin, rfl, hmargin⟩ := h
  have hnone := countLineEndings_spaces_append [] hmargin
  rw [List.append_nil] at hnone
  rw [LatexFormatter.countLineEndings, hnone]
  rfl

theorem IsLines.two_le_countLineEndings {blanks : List Char} (h : IsLines blanks) :
    2 ≤ countLineEndings blanks := by
  obtain ⟨more, rfl, -, hmore⟩ := h
  have hone := one_le_countLineEndings hmore
  rw [LatexFormatter.countLineEndings]
  omega

/-- A single stretch of white space does not reach over several lines. -/
theorem IsLines.whitespaceLength_lt {blanks : List Char} (h : IsLines blanks) :
    whitespaceLength blanks < blanks.length := by
  obtain ⟨more, rfl, -, hmore⟩ := h
  have hlt : spaceLength more < more.length := by
    refine lt_of_le_of_ne (spaceLength_le more) fun heq => ?_
    have hall : more.takeWhile LatexFormatter.isSpace = more := by
      rw [← take_runLength, show runLength LatexFormatter.isSpace more = more.length from heq,
        List.take_length]
    rw [← hall] at hmore
    exact absurd (List.mem_takeWhile_imp hmore) (by decide)
  have hstretch : whitespaceLength ('\n' :: more) = 1 + spaceLength more := by
    simp [whitespaceLength, spaceLength, runLength, LatexFormatter.isSpace, lineEndingLength]
  rw [hstretch, List.length_cons]
  omega

/-! ## Literal material -/

/-- The first occurrence of what closes literal material is where it was written,
if the material does not hold it and nothing in it is half of it. -/
theorem distanceTo_append {needle content : List Char} (rest : List Char) {first : Char}
    {more : List Char} (hneedle : needle = first :: more) (hfirst : first ∉ more)
    (h : ¬ needle <:+: content) :
    distanceTo? needle (content ++ needle ++ rest) = some content.length := by
  induction content with
  | nil =>
    subst hneedle
    simp [distanceTo?]
  | cons c content ih =>
    have hnot : needle.isPrefixOf (c :: content ++ needle ++ rest) = false := by
      cases hp : needle.isPrefixOf (c :: content ++ needle ++ rest) with
      | false => rfl
      | true =>
        exfalso
        rw [List.isPrefixOf_iff_prefix, List.append_assoc] at hp
        rcases Nat.le_total needle.length (c :: content).length with hle | hle
        · exact h (List.prefix_of_prefix_length_le hp (List.prefix_append _ _) hle).isInfix
        · -- what runs into the closing occurrence would hold its first character again
          obtain ⟨tail, htail⟩ := List.prefix_of_prefix_length_le (List.prefix_append _ _) hp hle
          have hmore : more = content ++ tail := by
            rw [hneedle, List.cons_append] at htail
            exact (List.cons.inj htail).2.symm
          rw [← htail, List.prefix_append_right_inj] at hp
          cases tail with
          | nil => exact h ⟨[], [], by simp [← htail]⟩
          | cons t tail =>
            have ht : t = c := by
              rw [List.cons_append, List.cons_append, List.cons_prefix_cons] at hp
              exact hp.1
            have hc : c = first := by
              rw [hneedle] at htail
              exact (List.cons.inj htail).1
            exact hfirst (by simp [hmore, ht, hc])
    have hrest := ih fun hin => h (hin.trans (List.suffix_cons c content).isInfix)
    simp only [List.cons_append, distanceTo?] at hnot ⊢
    rw [hnot, hrest]
    rfl

end LatexFormatter
