import LatexFormatter.Proofs.Doc.Builder
import LatexFormatter.Proofs.Node.Canonical

/-
  Prose: paragraphs of words, and the greedy way to wrap them. A word stays on
  the line if it fits there behind a space, and starts the next line otherwise.
  So no line is longer than the width unless it is a single word, and the words
  come out as they were.

  The same text is also described as its first word and what follows, word by
  word with the seam before each (`Prose.source_eq`, `Prose.wrapped_eq`). That is
  how prose is read, and how both printers go through it.
-/

namespace LatexFormatter

/-! ## Words and paragraphs -/

/-- Plain characters, the first of which may start a line. -/
structure Word where
  chars : List Char
  plain : ∀ c ∈ chars, isPlain c = true
  leads : isWrappable chars = true

/-- One word or more. -/
structure Paragraph where
  first : Word
  rest : List Word

/-- One paragraph or more. -/
structure Prose where
  first : Paragraph
  rest : List Paragraph

def Paragraph.words (paragraph : Paragraph) : List Word := paragraph.first :: paragraph.rest

namespace Prose

def paragraphs (prose : Prose) : List Paragraph := prose.first :: prose.rest

def words (prose : Prose) : List Word := prose.paragraphs.flatMap Paragraph.words

/-- Paragraphs with a blank line between any two. -/
def separated (texts : List (List Char)) : List Char := List.intercalate ['\n', '\n'] texts

/-- The words with one space between any two, and the paragraphs apart. -/
def source (prose : Prose) : String :=
  String.ofList (separated (prose.paragraphs.map fun paragraph =>
    List.intercalate [' '] (paragraph.words.map Word.chars)))

/-- The length of the longest word. -/
def longest (prose : Prose) : Nat := (prose.words.map (·.chars.length)).foldr max 0

end Prose

/-! ## Greedy wrapping -/

/-- The lines that a line becomes when words are added to it, as long as they
fit. -/
def wrapFrom (width : Nat) (line : List Char) : List Word → List (List Char)
  | [] => [line]
  | word :: rest =>
    if line.length + 1 + word.chars.length ≤ width then
      wrapFrom width (line ++ ' ' :: word.chars) rest
    else line :: wrapFrom width word.chars rest

/-- The lines of a paragraph. -/
def Paragraph.lines (width : Nat) (paragraph : Paragraph) : List (List Char) :=
  wrapFrom width paragraph.first.chars paragraph.rest

/-- The paragraphs apart, each wrapped. -/
def Prose.wrapped (width : Nat) (prose : Prose) : List Char :=
  separated (prose.paragraphs.map fun paragraph => List.intercalate ['\n'] (paragraph.lines width))

namespace Word

variable (word : Word)

theorem ne_nil : word.chars ≠ [] := by
  intro hnil
  have hleads := word.leads
  rw [hnil] at hleads
  cases hleads

theorem isBlank_of_mem {c : Char} (hc : c ∈ word.chars) : isBlank c = false :=
  isBlank_of_isPlain (word.plain c hc)

theorem newline_notMem : '\n' ∉ word.chars := by
  intro hmem
  have hblank := word.isBlank_of_mem hmem
  simp [isBlank, isLineBreak] at hblank

/-- No space is dropped where a word ends. -/
theorem dropWhile_reverse_append (out : List Char) :
    (word.chars.reverse ++ out).dropWhile isSpace = word.chars.reverse ++ out := by
  apply dropWhile_of_head
  intro c hc
  apply isSpace_of_isBlank_eq_false
  obtain ⟨last, more, hlast⟩ := List.exists_cons_of_ne_nil (List.reverse_ne_nil_iff.2 word.ne_nil)
  obtain rfl : last = c := by simpa [hlast] using hc
  exact word.isBlank_of_mem (List.mem_reverse.1 (by simp [hlast]))

end Word

/-! ## Lines -/

/-- A line that is too long is a single word. -/
theorem mem_wrapFrom {width : Nat} {line result : List Char} {words : List Word}
    (h : result ∈ wrapFrom width line words) :
    result.length ≤ width ∨ result = line ∨ ∃ word ∈ words, result = word.chars := by
  induction words generalizing line with
  | nil => exact Or.inr (Or.inl (by simpa [wrapFrom] using h))
  | cons word rest ih =>
    unfold wrapFrom at h
    split at h
    · next hfits =>
      rcases ih h with hle | rfl | ⟨other, hother, rfl⟩
      · exact Or.inl hle
      · left
        simp only [List.length_append, List.length_cons]
        omega
      · exact Or.inr (Or.inr ⟨other, by simp [hother], rfl⟩)
    · rcases List.mem_cons.1 h with rfl | h
      · exact Or.inr (Or.inl rfl)
      · rcases ih h with hle | rfl | ⟨other, hother, rfl⟩
        · exact Or.inl hle
        · exact Or.inr (Or.inr ⟨word, by simp, rfl⟩)
        · exact Or.inr (Or.inr ⟨other, by simp [hother], rfl⟩)

theorem newline_notMem_wrapFrom {width : Nat} {line result : List Char} {words : List Word}
    (hline : '\n' ∉ line) (h : result ∈ wrapFrom width line words) : '\n' ∉ result := by
  induction words generalizing line with
  | nil =>
    obtain rfl : result = line := by simpa [wrapFrom] using h
    exact hline
  | cons word rest ih =>
    unfold wrapFrom at h
    split at h
    · exact ih (by simp [hline, word.newline_notMem]) h
    · rcases List.mem_cons.1 h with rfl | h
      · exact hline
      · exact ih word.newline_notMem h

theorem wrapFrom_ne_nil (width : Nat) (line : List Char) (words : List Word) :
    wrapFrom width line words ≠ [] := by
  induction words generalizing line with
  | nil => simp [wrapFrom]
  | cons word rest ih =>
    unfold wrapFrom
    split
    · exact ih _
    · simp

/-- The lines of a paragraph can be told apart in its text. -/
theorem Paragraph.splitOn_lines (width : Nat) (paragraph : Paragraph) :
    (List.intercalate ['\n'] (paragraph.lines width)).splitOn '\n' = paragraph.lines width :=
  List.splitOn_intercalate '\n'
    (fun _ h => newline_notMem_wrapFrom paragraph.first.newline_notMem h) (wrapFrom_ne_nil _ _ _)

namespace Prose

/-- The lines of the whole text are those of the paragraphs, with an empty one
between any two. -/
theorem splitOn_wrapped (width : Nat) (prose : Prose) :
    (prose.wrapped width).splitOn '\n' = prose.first.lines width ++
      prose.rest.flatMap fun paragraph => [] :: paragraph.lines width := by
  have happend : ∀ xs ys : List Char,
      (xs ++ '\n' :: ys).splitOn '\n' = xs.splitOn '\n' ++ ys.splitOn '\n' :=
    fun xs ys => List.splitOnP_append_cons xs ys (by decide)
  obtain ⟨first, rest⟩ := prose
  simp only [wrapped, separated, paragraphs, List.map_cons]
  induction rest generalizing first with
  | nil => simpa [List.intercalate] using first.splitOn_lines width
  | cons paragraph rest ih =>
    rw [List.map_cons, List.intercalate_cons_cons, List.append_assoc, List.cons_append,
      List.cons_append, List.nil_append, happend, first.splitOn_lines, List.flatMap_cons]
    have hblank := happend [] (List.intercalate ['\n', '\n']
      (List.intercalate ['\n'] (paragraph.lines width) :: rest.map fun paragraph =>
        List.intercalate ['\n'] (paragraph.lines width)))
    rw [List.nil_append] at hblank
    rw [hblank, ih paragraph]
    rfl

theorem length_le_longest {prose : Prose} {word : Word} (h : word ∈ prose.words) :
    word.chars.length ≤ prose.longest := by
  unfold longest
  generalize prose.words = words at h
  induction words with
  | nil => cases h
  | cons other rest ih =>
    simp only [List.map_cons, List.foldr_cons]
    rcases List.mem_cons.1 h with rfl | h
    · omega
    · have := ih h
      omega

/-- No line is longer than the width, or than the longest word. -/
theorem length_line_le {width : Nat} {prose : Prose} {line : List Char}
    (h : line ∈ (prose.wrapped width).splitOn '\n') : line.length ≤ max width prose.longest := by
  have hparagraph : ∀ paragraph ∈ prose.paragraphs, line ∈ paragraph.lines width →
      line.length ≤ max width prose.longest := by
    intro paragraph hmem hline
    have hwords : ∀ word ∈ paragraph.words, word.chars.length ≤ prose.longest :=
      fun word hword => length_le_longest (List.mem_flatMap.2 ⟨paragraph, hmem, hword⟩)
    rcases mem_wrapFrom hline with hle | rfl | ⟨word, hword, rfl⟩
    · omega
    · have := hwords paragraph.first (by simp [Paragraph.words])
      omega
    · have := hwords word (by simp [Paragraph.words, hword])
      omega
  rw [splitOn_wrapped, List.mem_append, List.mem_flatMap] at h
  rcases h with h | ⟨paragraph, hmem, h⟩
  · exact hparagraph prose.first (by simp [paragraphs]) h
  · rcases List.mem_cons.1 h with rfl | h
    · simp
    · exact hparagraph paragraph (by simp [paragraphs, hmem]) h

end Prose

/-! ## Word by word -/

/-- What stands between two words. -/
inductive Seam where
  | space
  | blankLine

namespace Seam

def chars : Seam → List Char
  | space => [' ']
  | blankLine => ['\n', '\n']

def node : Seam → Node
  | space => .whitespace
  | blankLine => .parbreak

end Seam

/-- The words that follow a word, each with the seam before it. -/
abbrev Followers := List (Seam × Word)

/-- The text of what follows a word. -/
def Followers.text (followers : Followers) : List Char :=
  followers.flatMap fun (seam, word) => seam.chars ++ word.chars

/-- What follows a word that ends in the given column, wrapped. -/
def Followers.filled (width column : Nat) : Followers → List Char
  | [] => []
  | (.space, word) :: rest =>
    if column + 1 + word.chars.length ≤ width then
      ' ' :: word.chars ++ filled width (column + 1 + word.chars.length) rest
    else '\n' :: word.chars ++ filled width word.chars.length rest
  | (.blankLine, word) :: rest => '\n' :: '\n' :: word.chars ++ filled width word.chars.length rest

/-- The nodes of what follows a word. -/
def Followers.nodes (followers : Followers) : List Node :=
  followers.flatMap fun (seam, word) => [seam.node, .string (String.ofList word.chars)]

/-- The words of a paragraph after its first one. -/
def Paragraph.followers (paragraph : Paragraph) : Followers :=
  paragraph.rest.map fun word => (.space, word)

/-- All words but the first. -/
def Prose.followers (prose : Prose) : Followers :=
  prose.first.followers ++ prose.rest.flatMap fun paragraph =>
    (.blankLine, paragraph.first) :: paragraph.followers

/-- The words of a text. -/
def wordsOf (text : List Char) : List (List Char) := (text.splitOnP isBlank).filter (!·.isEmpty)

theorem Paragraph.text_eq (paragraph : Paragraph) :
    List.intercalate [' '] (paragraph.words.map Word.chars)
      = paragraph.first.chars ++ paragraph.followers.text := by
  simp [Paragraph.words, Doc.intercalate_cons, Paragraph.followers, Followers.text, Seam.chars,
    List.flatMap_map]

theorem Prose.source_eq (prose : Prose) :
    prose.source = String.ofList (prose.first.first.chars ++ prose.followers.text) := by
  simp only [source, separated, paragraphs, List.map_cons, Doc.intercalate_cons, Paragraph.text_eq]
  simp [followers, Followers.text, Seam.chars, List.flatMap_map, List.flatMap_assoc]

/-- The lines of a paragraph, and what comes behind them, in one go. -/
theorem filled_of_wrapFrom {width : Nat} {later : Followers} {tail : List Char}
    (hlater : ∀ column, later.filled width column = tail) (line : List Char) (words : List Word) :
    List.intercalate ['\n'] (wrapFrom width line words) ++ tail
      = line ++ Followers.filled width line.length
          ((words.map fun word => (.space, word)) ++ later) := by
  induction words generalizing line with
  | nil => simp [wrapFrom, List.intercalate, hlater]
  | cons word rest ih =>
    simp only [wrapFrom, List.map_cons, List.cons_append, Followers.filled]
    split
    · have hlength : (line ++ ' ' :: word.chars).length = line.length + 1 + word.chars.length := by
        simp only [List.length_append, List.length_cons]
        omega
      rw [ih, hlength]
      simp
    · obtain ⟨next, more, hnext⟩ := List.exists_cons_of_ne_nil
        (wrapFrom_ne_nil width word.chars rest)
      have hrest := ih word.chars
      rw [hnext] at hrest ⊢
      rw [List.intercalate_cons_cons, List.append_assoc, hrest]
      simp

theorem Prose.wrapped_eq (width : Nat) (prose : Prose) :
    prose.wrapped width = prose.first.first.chars
      ++ prose.followers.filled width prose.first.first.chars.length := by
  have hlater : ∀ (rest : List Paragraph) (column : Nat),
      Followers.filled width column (rest.flatMap fun paragraph =>
          (.blankLine, paragraph.first) :: paragraph.followers)
        = rest.flatMap fun paragraph =>
          ['\n', '\n'] ++ List.intercalate ['\n'] (paragraph.lines width) := by
    intro rest
    induction rest with
    | nil => intro column; rfl
    | cons paragraph rest ih =>
      intro column
      have hlines := filled_of_wrapFrom ih paragraph.first.chars paragraph.rest
      simp only [List.flatMap_cons, List.cons_append, Followers.filled, Paragraph.lines]
      rw [Paragraph.followers, ← hlines]
      simp [Paragraph.lines]
  have hlines := filled_of_wrapFrom (hlater prose.rest) prose.first.first.chars prose.first.rest
  rw [wrapped, separated, paragraphs, List.map_cons, Doc.intercalate_cons, List.flatMap_map,
    Prose.followers, Paragraph.followers, ← hlines]
  rfl

/-! ## The words that come out -/

theorem wordsOf_append {c : Char} (hc : isBlank c = true) (xs ys : List Char) :
    wordsOf (xs ++ c :: ys) = wordsOf xs ++ wordsOf ys := by
  rw [wordsOf, List.splitOnP_append_cons xs ys hc, List.filter_append]
  rfl

theorem Word.wordsOf_chars (word : Word) : wordsOf word.chars = [word.chars] := by
  rw [wordsOf, List.splitOnP_eq_singleton fun c hc => word.isBlank_of_mem hc]
  simp [word.ne_nil]

theorem Followers.wordsOf_filled (width column : Nat) (word : Word) (followers : Followers) :
    wordsOf (word.chars ++ followers.filled width column)
      = word.chars :: followers.map fun follower => follower.2.chars := by
  induction followers generalizing word column with
  | nil => simpa [filled] using word.wordsOf_chars
  | cons follower rest ih =>
    obtain ⟨seam, next⟩ := follower
    cases seam with
    | space =>
      simp only [filled, List.map_cons]
      split
      · rw [List.cons_append, wordsOf_append (by decide), word.wordsOf_chars, ih]
        rfl
      · rw [List.cons_append, wordsOf_append (by decide), word.wordsOf_chars, ih]
        rfl
    | blankLine =>
      have hblank := wordsOf_append (by decide : isBlank '\n' = true) []
        (next.chars ++ filled width next.chars.length rest)
      rw [List.nil_append] at hblank
      simp only [filled, List.map_cons, List.cons_append]
      rw [wordsOf_append (by decide), hblank, word.wordsOf_chars, ih]
      rfl

/-- Wrapping leaves the words as they are, and in their order. -/
theorem Prose.wordsOf_wrapped (width : Nat) (prose : Prose) :
    wordsOf (prose.wrapped width) = prose.words.map Word.chars := by
  rw [wrapped_eq, Followers.wordsOf_filled]
  simp [words, paragraphs, Paragraph.words, followers, Paragraph.followers, List.map_flatMap,
    Function.comp_def]

/-! ## Reading prose -/

theorem Followers.sealed_text (followers : Followers) : Sealed followers.text := by
  cases followers with
  | nil => exact sealed_nil
  | cons follower rest =>
    obtain ⟨seam, word⟩ := follower
    cases seam <;> exact sealed_cons (by decide)

/-- A word is read as one word, whatever follows it. -/
theorem Word.wordLength_append (word : Word) {text : List Char} (h : Sealed text) :
    wordLength (word.chars ++ text) = word.chars.length := by
  rw [LatexFormatter.wordLength_append word.ne_nil h]
  -- a number has a point, which is no plain character
  have hnumber : numberLength word.chars = 0 := by
    simp only [numberLength]
    split
    · next rest hdrop =>
      have hpoint := word.plain '.' (List.mem_of_mem_drop (hdrop ▸ List.mem_cons_self))
      exact absurd hpoint (by decide)
    · rfl
  obtain ⟨c, rest, hchars⟩ := List.exists_cons_of_ne_nil word.ne_nil
  have hplain := word.plain c (by simp [hchars])
  have hpunctuation : isPunctuation c = false := by
    simp only [isPlain, Bool.and_eq_true, Bool.not_eq_true'] at hplain
    exact hplain.2
  have hrun := runLength_of_all word.plain
  rw [wordLength.eq_def, if_pos hnumber]
  rw [hchars] at hrun ⊢
  simp only [hpunctuation, Bool.false_eq_true, if_false]
  exact hrun

/-- A word is spelled by its characters, if nothing can be taken for more of it. -/
theorem Word.spelled (word : Word) {fresh : Bool} {raw : List Node} {text : List Char}
    (hsealed : Sealed text) (h : Spelled .text false raw text) :
    Spelled .text fresh (.string (String.ofList word.chars) :: raw) (word.chars ++ text) := by
  have hspelled : Spelled .text fresh (.string (String.ofList word.chars) :: raw)
      ((String.ofList word.chars).toList ++ text) := by
    refine .string _ ?_ ?_ ?_ h
    · simpa using word.ne_nil
    · intro c hc
      rw [String.toList_ofList] at hc
      exact Or.inl (word.plain c hc)
    · rw [String.toList_ofList]
      exact word.wordLength_append hsealed
  rwa [String.toList_ofList] at hspelled

theorem spelled_prose (fresh : Bool) (word : Word) (followers : Followers) :
    Spelled .text fresh (.string (String.ofList word.chars) :: followers.nodes)
      (word.chars ++ followers.text) := by
  apply word.spelled followers.sealed_text
  generalize false = fresh
  induction followers generalizing fresh with
  | nil => exact .nil
  | cons follower rest ih =>
    obtain ⟨seam, next⟩ := follower
    obtain ⟨c, more, hchars⟩ := List.exists_cons_of_ne_nil next.ne_nil
    have hmem : c ∈ next.chars := by simp [hchars]
    have hhead : (next.chars ++ Followers.text rest).head? = some c := by simp [hchars]
    have hspelled : Spelled .text fresh (spaceOf seam.chars :: .string (String.ofList next.chars)
        :: Followers.nodes rest) (seam.chars ++ (next.chars ++ Followers.text rest)) := by
      refine .space ?_ ?_ ?_ ?_ (next.spelled (Followers.sealed_text rest) (ih false))
      · cases seam <;> simp [Seam.chars]
      · cases seam <;> simp [Seam.chars, isBlank, isSpace, isLineBreak]
      · simpa [hhead] using next.isBlank_of_mem hmem
      · intro hpercent
        obtain rfl : c = '%' := by simpa [hhead] using hpercent
        exact absurd (next.plain _ hmem) (by decide)
    have hnode : spaceOf seam.chars = seam.node := by cases seam <;> rfl
    rw [hnode] at hspelled
    simpa [Followers.nodes, Followers.text] using hspelled

/-- There is no excess space in prose. -/
theorem collapseFrom_prose (before : Option Node) (hbefore : Node.dropsSpace false before = false)
    (followers : Followers) :
    Node.collapseFrom false before none followers.nodes = followers.nodes := by
  induction followers generalizing before with
  | nil => rfl
  | cons follower rest ih =>
    obtain ⟨seam, word⟩ := follower
    have hrest := ih (some (.string (String.ofList word.chars))) rfl
    cases seam with
    | space | blankLine =>
      simp only [Followers.nodes, List.flatMap_cons, List.cons_append, List.nil_append, Seam.node,
        Node.collapseFrom, Node.gap, hbefore] at hrest ⊢
      rw [hrest]
      rfl

/-- Prose is read as its words and what stands between them. -/
theorem Prose.parseNormalized_source (prose : Prose) :
    parseNormalized prose.source
      = .ok (.list (.string (String.ofList prose.first.first.chars) :: prose.followers.nodes)) := by
  have hparse := parse_spelled (spelled_prose true prose.first.first prose.followers)
  have hmap : ∀ followers : Followers, followers.nodes.map Node.normalize = followers.nodes := by
    intro followers
    induction followers with
    | nil => rfl
    | cons follower rest ih =>
      obtain ⟨seam, word⟩ := follower
      simp only [Followers.nodes, List.flatMap_cons, List.map_append] at ih ⊢
      rw [ih]
      cases seam <;> rfl
  rw [parseNormalized, prose.source_eq, hparse]
  show Except.ok (Node.normalize _) = _
  rw [Node.normalize_list, List.map_cons, hmap]
  have hkeep := collapseFrom_prose (some (.string (String.ofList prose.first.first.chars))) rfl
    prose.followers
  simp [Node.normalize, Node.tidy, Node.collapse, Node.collapseFrom, Node.gap, hkeep]

end LatexFormatter
