import LatexFormatter.Format
import LatexFormatter.Proofs.Grammar.Notations
import LatexFormatter.Proofs.Grammar.Transparency
import LatexFormatter.Proofs.Node.Normal

/-
  Spellings of trees. A list of nodes is spelled by a text if the text is made
  of the notation of each node in turn, a space node being any blanks that read
  as it, and no two notations in a row can be taken for something else. What a
  notation is depends on the mode, and for a comment on whether anything but
  spaces stands before it on its line, so a spelling knows of both. Such a text is
  read as exactly that list, wherever it stands (`Spelled.renders`,
  `parse_spelled`).
-/

namespace LatexFormatter

/-! ## Where a line begins -/

/-- Whether only spaces stand on the line once the text has been read too. -/
def freshAfterAll (fresh : Bool) (text : List Char) : Bool := text.foldl Cursor.freshAfter fresh

@[simp] theorem freshAfterAll_nil (fresh : Bool) : freshAfterAll fresh [] = fresh := rfl

theorem freshAfterAll_append (fresh : Bool) (text more : List Char) :
    freshAfterAll fresh (text ++ more) = freshAfterAll (freshAfterAll fresh text) more :=
  List.foldl_append

/-- Behind something that is no blank the line is not fresh. -/
theorem freshAfterAll_concat (fresh : Bool) (text : List Char) {c : Char}
    (h : isBlank c = false) : freshAfterAll fresh (text ++ [c]) = false := by
  simp only [isBlank, Bool.or_eq_false_iff] at h
  simp [freshAfterAll, Cursor.freshAfter, h.1, h.2]

theorem freshAfterAll_of_last (fresh : Bool) {text : List Char} {c : Char}
    (hlast : text.getLast? = some c) (h : isBlank c = false) :
    freshAfterAll fresh text = false := by
  obtain ⟨front, rfl⟩ := List.getLast?_eq_some_iff.1 hlast
  exact freshAfterAll_concat fresh front h

/-- Blanks leave a fresh line fresh. -/
theorem freshAfterAll_true {blanks : List Char} (h : ∀ c ∈ blanks, isBlank c = true) :
    freshAfterAll true blanks = true := by
  induction blanks with
  | nil => rfl
  | cons c blanks ih =>
    have hc := h c (by simp)
    have hfresh : Cursor.freshAfter true c = true := by
      simpa [Cursor.freshAfter, isBlank, Bool.or_comm] using hc
    show freshAfterAll (Cursor.freshAfter true c) blanks = true
    rw [hfresh]
    exact ih fun d hd => h d (by simp [hd])

/-- Spaces leave a line as it is. -/
theorem freshAfterAll_of_spaces (fresh : Bool) {spaces : List Char}
    (h : ∀ c ∈ spaces, isSpace c = true) : freshAfterAll fresh spaces = fresh := by
  induction spaces with
  | nil => rfl
  | cons c spaces ih =>
    have hc := h c (by simp)
    have hbreak : isLineBreak c = false := by
      simp only [isSpace, Bool.or_eq_true, beq_iff_eq] at hc
      rcases hc with rfl | rfl <;> rfl
    have hfresh : Cursor.freshAfter fresh c = fresh := by simp [Cursor.freshAfter, hbreak, hc]
    show freshAfterAll (Cursor.freshAfter fresh c) spaces = fresh
    rw [hfresh]
    exact ih fun d hd => h d (by simp [hd])

theorem getLast?_beginTag (name : List Char) : (beginTag name).getLast? = some '}' :=
  List.getLast?_concat

theorem freshAfterAll_endTag (fresh : Bool) (text name : List Char) :
    freshAfterAll fresh (text ++ endTag name) = false := by
  rw [freshAfterAll_append, endTag]
  exact freshAfterAll_concat _ _ (by decide)

theorem Cursor.fresh_skip {here : Cursor} {text more : List Char} (h : here.rest = text ++ more) :
    (here.skip text.length).fresh = freshAfterAll here.fresh text := by
  simp [Cursor.skip, h, freshAfterAll]

/-! ## The relation -/

/-- A character of running text that opens no arguments. -/
def isWordChar (c : Char) : Bool := (isPlain c || isPunctuation c) && c != '['

/-- The space node that blanks stand for. -/
def spaceOf (blanks : List Char) : Node := .spaceNode (decide (2 ≤ countLineEndings blanks))

/-- The blanks that a notation may take along: none in running text. -/
def Takes : Mode → List Char → Prop
  | .math, blanks => ∀ c ∈ blanks, isBlank c = true
  | .text, blanks => blanks = []
  | .arguments, _ => False

/-- All blanks on both sides, if the mode lets a notation take any. -/
def Around (mode : Mode) (before after text : List Char) : Prop :=
  Takes mode before ∧ Takes mode after ∧ (mode = .math → ∀ c ∈ text.head?, isBlank c = false)

/-- Where a comment stands: behind other content of its line, on a fresh line, or at
the end of a line, which it takes along. -/
def Seated (fresh : Bool) (before : List Char) : Bool → Prop
  | true => before = [] ∧ fresh = false
  | false => (fresh = true ∧ ∀ c ∈ before, isSpace c = true) ∨ IsLine before

/-- What a comment takes along of its line ending: nothing if a blank line
follows. -/
def EndsComment (ending text : List Char) : Prop :=
  ending = ['\n'] ∧ parbreakLength ('\n' :: text) = 0 ∨
    ending = [] ∧ text.head? = some '\n' ∧ parbreakLength text ≠ 0

/-- Read in the given mode, on a line that is fresh or not, the text spells the
nodes. -/
inductive Spelled : Mode → Bool → List Node → List Char → Prop
  | nil {mode : Mode} {fresh : Bool} : Spelled mode fresh [] []
  | space {fresh : Bool} {raw : List Node} {blanks text : List Char} (hne : blanks ≠ [])
      (hb : ∀ c ∈ blanks, isBlank c = true) (ht : ∀ c ∈ text.head?, isBlank c = false)
      (hcomment : text.head? = some '%' →
        IsLines blanks ∨ fresh = false ∧ ∀ c ∈ blanks, isSpace c = true)
      (h : Spelled .text (freshAfterAll fresh blanks) raw text) :
      Spelled .text fresh (spaceOf blanks :: raw) (blanks ++ text)
  /-- A stretch of blanks in math, one of several perhaps. -/
  | stretch {fresh : Bool} {raw : List Node} {blanks text : List Char} (hne : blanks ≠ [])
      (hb : ∀ c ∈ blanks, isBlank c = true)
      (hl : whitespaceLength (blanks ++ text) = blanks.length)
      (ht : ∀ c ∈ (text.dropWhile isBlank).head?, takesBlanks c = false)
      (hcomment : (text.dropWhile isBlank).head? = some '%' →
        text.head? = some '%' ∧ fresh = false ∧ ∀ c ∈ blanks, isSpace c = true)
      (h : Spelled .math (freshAfterAll fresh blanks) raw text) :
      Spelled .math fresh (.whitespace :: raw) (blanks ++ text)
  | string {fresh : Bool} {raw : List Node} {text : List Char} (content : String)
      (hne : content.toList ≠ [])
      (hc : ∀ c ∈ content.toList, isPlain c = true ∨ isPunctuation c = true)
      (hl : wordLength (content.toList ++ text) = content.toList.length)
      (h : Spelled .text false raw text) :
      Spelled .text fresh (.string content :: raw) (content.toList ++ text)
  | char {fresh : Bool} {raw : List Node} {text : List Char} (c : Char)
      (hc : isMathChar c = true) (h : Spelled .math false raw text) :
      Spelled .math fresh (.string (String.ofList [c]) :: raw) (c :: text)
  | mark {mode : Mode} {fresh : Bool} {raw : List Node} {before after text : List Char} (c : Char)
      (hc : c = '&' ∨ c = '#') (ha : Around mode before after text)
      (h : Spelled mode (freshAfterAll false after) raw text) :
      Spelled mode fresh (.string (String.ofList [c]) :: raw) (before ++ c :: after ++ text)
  | command {mode : Mode} {fresh : Bool} {raw : List Node} {text : List Char} (name : String)
      (hn : IsCommandName name.toList) (ht : ∀ c ∈ text.head?, isLetter c = false)
      (hargs : ¬ OpensArguments text) (h : Spelled mode false raw text) :
      Spelled mode fresh (.command name none :: raw) ('\\' :: name.toList ++ text)
  /-- A command whose name is one character that is no letter. -/
  | symbol {mode : Mode} {fresh : Bool} {raw : List Node} {text : List Char} (c : Char)
      (hl : isLetter c = false) (hb : isBlank c = false) (hc : c ≠ '[' ∧ c ≠ ']' ∧ c ≠ '(')
      (hargs : ¬ OpensArguments text) (h : Spelled mode false raw text) :
      Spelled mode fresh (.command (String.ofList [c]) none :: raw) ('\\' :: c :: text)
  | group {mode : Mode} {fresh : Bool} {raw body : List Node} {before inner after text : List Char}
      (ha : Around mode before after text) (hb : Spelled .text false body inner)
      (h : Spelled mode (freshAfterAll false after) raw text) :
      Spelled mode fresh (.group body :: raw) (before ++ '{' :: inner ++ '}' :: after ++ text)
  | scriptChar {mode : Mode} {fresh : Bool} {raw : List Node} {before text : List Char}
      (mark : Mark) (c : Char) (ht : Takes mode before) (hc : isMathChar c = true)
      (h : Spelled mode false raw text) :
      Spelled mode fresh (.script mark (some (.string (String.ofList [c]))) :: raw)
        (before ++ [mark.char, c] ++ text)
  | scriptGroup {mode : Mode} {fresh : Bool} {raw body : List Node}
      {before inner text : List Char} (mark : Mark) (ht : Takes mode before)
      (hb : Spelled .text false body inner) (h : Spelled mode false raw text) :
      Spelled mode fresh (.script mark (some (.group body)) :: raw)
        (before ++ [mark.char, '{'] ++ inner ++ ['}'] ++ text)
  | inlineMath {fresh : Bool} {raw body : List Node} {inner text : List Char} (hne : inner ≠ [])
      (hb : Spelled .math false body inner) (h : Spelled .text false raw text) :
      Spelled .text fresh (.inlineMath body :: raw) ('$' :: inner ++ ['$'] ++ text)
  | displayMath {mode : Mode} {fresh : Bool} {raw body : List Node} {inner text : List Char}
      (hb : Spelled .math false body inner) (h : Spelled mode false raw text) :
      Spelled mode fresh (.displayMath body :: raw) (['\\', '['] ++ inner ++ ['\\', ']'] ++ text)
  | verb {mode : Mode} {fresh : Bool} {raw : List Node} {text : List Char} (delimiter : Char)
      (content : String) (hl : isLetter delimiter = false)
      (hw : Text.isWhiteSpace delimiter = false) (hc : delimiter ∉ content.toList)
      (h : Spelled mode false raw text) :
      Spelled mode fresh (.verb delimiter content :: raw)
        (['\\', 'v', 'e', 'r', 'b'] ++ delimiter :: content.toList ++ [delimiter] ++ text)
  | verbatim {mode : Mode} {fresh : Bool} {raw : List Node} {text : List Char} (content : String)
      (hc : ¬ endTag verbatimName.toList <:+: content.toList) (h : Spelled mode false raw text) :
      Spelled mode fresh (.verbatim content :: raw)
        (beginTag verbatimName.toList ++ content.toList ++ endTag verbatimName.toList ++ text)
  /-- A block comment takes its line ending along. -/
  | commentEnvironment {mode : Mode} {fresh : Bool} {raw : List Node} {text : List Char}
      (content : String) (hc : ¬ endTag commentName.toList <:+: content.toList)
      (h : Spelled mode true raw text) :
      Spelled mode fresh (.commentEnvironment content :: raw)
        (beginTag commentName.toList ++ content.toList ++ endTag commentName.toList ++ ['\n']
          ++ text)
  | comment {mode : Mode} {fresh : Bool} {raw : List Node} {before ending text : List Char}
      (content : String) (sameline : Bool) (hc : ∀ c ∈ content.toList, isLineBreak c = false)
      (hs : Seated fresh before sameline) (he : EndsComment ending text)
      (h : Spelled mode (freshAfterAll false ending) raw text) :
      Spelled mode fresh (.comment content sameline :: raw)
        (before ++ '%' :: content.toList ++ ending ++ text)
  | environment {mode : Mode} {fresh : Bool} {raw body : List Node} {inner text : List Char}
      (name : String) (hn : IsEnvironmentName name.toList) (hargs : ¬ OpensArguments inner)
      (hb : Spelled .text false body inner) (h : Spelled mode false raw text) :
      Spelled mode fresh (.environment name none body :: raw)
        (beginTag name.toList ++ inner ++ endTag name.toList ++ text)
  | mathEnvironment {mode : Mode} {fresh : Bool} {raw body : List Node} {inner text : List Char}
      (name : String) (hn : IsMathName name.toList) (hb : Spelled .math false body inner)
      (h : Spelled mode false raw text) :
      Spelled mode fresh (.mathEnvironment name body :: raw)
        (beginTag name.toList ++ inner ++ endTag name.toList ++ text)

/-! ## What closes a spelling -/

/-- What closes a sequence comes next. -/
inductive Closed : Mode → Option (List Char) → List Char → Prop
  | atEnd : Closed .text none []
  | brace (rest : List Char) : Closed .text (some ['}']) ('}' :: rest)
  | dollar (rest : List Char) : Closed .math (some ['$']) ('$' :: rest)
  | brackets (rest : List Char) : Closed .math (some ['\\', ']']) ('\\' :: ']' :: rest)
  | tag {mode : Mode} (name rest : List Char) :
    Closed mode (some (endTag name)) (endTag name ++ rest)

section Closing

variable {mode : Mode} {stop : Option (List Char)} {tail : List Char}

theorem Closed.head (h : Closed mode stop tail) :
    ∀ c ∈ tail.head?, c = '}' ∨ c = '$' ∨ c = '\\' := by
  cases h <;> simp [endTag]

theorem Closed.isBlank_head (h : Closed mode stop tail) :
    ∀ c ∈ tail.head?, isBlank c = false := by
  intro c hc
  rcases h.head c hc with rfl | rfl | rfl <;> decide

theorem Closed.sealed (h : Closed mode stop tail) : Sealed tail := by
  intro c hc
  rcases h.head c hc with rfl | rfl | rfl <;> decide

/-- What closes a sequence opens no arguments. -/
theorem Closed.not_opensArguments {text : List Char} (h : Closed mode stop tail)
    (ht : ¬ OpensArguments text) : ¬ OpensArguments (text ++ tail) := by
  unfold OpensArguments at ht ⊢
  rw [whitespaceLength_append_of_head _ h.isBlank_head,
    List.drop_append_of_le_length (whitespaceLength_le text)]
  intro hbracket
  rcases mem_head?_append (Option.mem_def.2 hbracket) with hmem | hmem
  · exact ht hmem
  · rcases h.head _ hmem with hc | hc | hc <;> cases hc

/-- What may be asked of the first character behind a text may be asked of what comes
next, if it holds of what closes a sequence. -/
theorem Closed.head_append {text : List Char} (h : Closed mode stop tail) (p : Char → Prop)
    (ht : ∀ c ∈ text.head?, p c) (hp : p '}' ∧ p '$' ∧ p '\\') :
    ∀ c ∈ (text ++ tail).head?, p c := by
  intro c hc
  rcases mem_head?_append hc with hc | hc
  · exact ht c hc
  · rcases h.head c hc with rfl | rfl | rfl
    · exact hp.1
    · exact hp.2.1
    · exact hp.2.2

/-- No sequence ends before a character that is neither a closing brace, nor a dollar
in math, nor a backslash. -/
theorem Closed.stopsAt_of_char {here : Cursor} {c : Char} {more : List Char}
    (hc : Closed mode stop tail) (h : here.rest = c :: more) (hbrace : c ≠ '}')
    (hdollar : mode = .math → c ≠ '$') (hbackslash : c ≠ '\\') : stopsAt stop here = false := by
  cases hc with
  | atEnd => rfl
  | brace => exact Cursor.sees_eq_false h hbrace.symm
  | dollar => exact Cursor.sees_eq_false h (hdollar rfl).symm
  | brackets | tag => exact Cursor.sees_eq_false h hbackslash.symm

/-- Nor before a backslash, unless it belongs to a closing tag or a closing
bracket. -/
theorem Closed.stopsAt_of_backslash {here : Cursor} {c : Char} {more : List Char}
    (hc : Closed mode stop tail) (h : here.rest = '\\' :: c :: more) (hbracket : c ≠ ']')
    (htag : ∀ name, here.sees (endTag name) = false) : stopsAt stop here = false := by
  cases hc with
  | atEnd => rfl
  | brace => exact Cursor.sees_eq_false h (by decide)
  | dollar => exact Cursor.sees_eq_false h (by decide)
  | brackets => simp [stopsAt, Cursor.sees, h, List.isPrefixOf, hbracket.symm]
  | tag name => exact htag name

end Closing

/-- No closing tag begins with a backslash and another letter. -/
theorem sees_endTag_eq_false {here : Cursor} {c : Char} {more : List Char}
    (h : here.rest = '\\' :: c :: more) (hc : c ≠ 'e') (name : List Char) :
    here.sees (endTag name) = false := by
  simp [Cursor.sees, h, endTag, List.isPrefixOf, hc.symm]

/-! ## One token after the other -/

/-- The text is read as these trees wherever it is closed. -/
def ReadsAs (mode : Mode) (fresh : Bool) (text : List Char) (trees : List ParseTree) : Prop :=
  ∀ (n : Nat) (stop : Option (List Char)) (tail : List Char) (here : Cursor),
    Closed mode stop tail → here.rest = text ++ tail → here.fresh = fresh → here.rest.length < n →
    Gives ((Ahead.within Retrieval.fresh n).sequence mode stop here)
      (here.skip text.length, trees)

theorem readsAs_nil {mode : Mode} {fresh : Bool} : ReadsAs mode fresh [] [] := by
  intro n stop tail here hc hrest _ hn
  obtain ⟨m, rfl⟩ : ∃ m, n = m + 1 := ⟨n - 1, by omega⟩
  rw [List.nil_append] at hrest
  rw [List.length_nil, Cursor.skip_zero]
  apply gives_sequence_stop
  cases hc with
  | atEnd => exact Or.inl hrest
  | brace | dollar | brackets => exact Or.inr (by simp [stopsAt, Cursor.sees, hrest])
  | tag name rest =>
    apply Or.inr
    rw [stopsAt, Cursor.sees, hrest, List.isPrefixOf_iff_prefix]
    exact List.prefix_append _ _

/-- The piece is read as the item in front of the text, wherever that is closed. The
item may look at all that follows, and nested material in it lies closer to the end
than the item itself. -/
def Fronts (mode : Mode) (fresh : Bool) (piece text : List Char) (item : ParseTree) : Prop :=
  ∀ (n : Nat) (stop : Option (List Char)) (tail : List Char) (here : Cursor),
    Closed mode stop tail → here.rest = piece ++ (text ++ tail) → here.fresh = fresh →
    here.rest.length ≤ n → stopsAt stop here = false ∧
      Finds (token (Ahead.within Retrieval.fresh n) mode here)
        (some (here.skip piece.length, item))

/-- A text that begins with one token is read as that and what comes after. -/
theorem ReadsAs.cons {mode : Mode} {fresh : Bool} {piece text : List Char} {item : ParseTree}
    {trees : List ParseTree} (h : ReadsAs mode (freshAfterAll fresh piece) text trees)
    (hne : piece ≠ []) (hnull : ∀ c ∈ piece.head?, c ≠ '\x00')
    (htoken : Fronts mode fresh piece text item) :
    ReadsAs mode fresh (piece ++ text) (item :: trees) := by
  intro n stop tail here hc hrest hfresh hn
  -- one level of lookahead goes to this token, and the rest of the text is shorter by one
  obtain ⟨m, rfl⟩ : ∃ m, n = m + 1 := ⟨n - 1, by omega⟩
  rw [List.append_assoc] at hrest
  obtain ⟨hstop, hfinds⟩ := htoken m stop tail here hc hrest hfresh (by omega)
  have hnext : (here.skip piece.length).rest = text ++ tail := by
    rw [Cursor.rest_skip, hrest, List.drop_left]
  have hlength : (here.skip piece.length).rest.length < m := by
    have hpos : 0 < piece.length := List.length_pos_iff.mpr hne
    have hwhole := congrArg List.length hrest
    rw [List.length_append] at hwhole
    rw [Cursor.length_skip]
    omega
  have hgives := h m stop tail _ hc hnext (by rw [Cursor.fresh_skip hrest, hfresh]) hlength
  obtain ⟨c, more, rfl⟩ := List.exists_cons_of_ne_nil hne
  rw [Cursor.skip_skip, ← List.length_append] at hgives
  exact gives_sequence_cons hrest (hnull c (by simp)) hstop hfinds hgives

/-- The trees stand for the nodes, and the text is read as them. -/
def Renders (mode : Mode) (fresh : Bool) (text : List Char) (raw : List Node) : Prop :=
  ∃ trees, Node.ofItems trees = .ok raw ∧ ReadsAs mode fresh text trees

theorem Renders.cons {mode : Mode} {fresh fresh' : Bool} {piece text : List Char} {node : Node}
    {raw : List Node} (h : Renders mode fresh' text raw)
    (hfresh : freshAfterAll fresh piece = fresh')
    (item : ParseTree) (hitem : Node.ofParseTree item = .ok node) (hne : piece ≠ [])
    (hnull : ∀ c ∈ piece.head?, c ≠ '\x00') (htoken : Fronts mode fresh piece text item) :
    Renders mode fresh (piece ++ text) (node :: raw) := by
  obtain ⟨trees, htrees, hreads⟩ := h
  subst hfresh
  refine ⟨item :: trees, ?_, hreads.cons hne hnull htoken⟩
  simp only [Node.ofItems, hitem, htrees]
  rfl

/-- What a nested sequence is read as, inside of a notation. -/
theorem ReadsAs.nested {mode : Mode} {stop : Option (List Char)} {opening inner tail : List Char}
    {trees : List ParseTree} {here : Cursor} {n : Nat} {c : Char}
    (h : ReadsAs mode false inner trees) (hc : Closed mode stop tail)
    (hlast : opening.getLast? = some c) (hblank : isBlank c = false)
    (hrest : here.rest = opening ++ (inner ++ tail)) (hn : here.rest.length ≤ n) :
    Gives ((Ahead.within Retrieval.fresh n).sequence mode stop (here.skip opening.length))
      (here.skip (opening.length + inner.length), trees) ∧
      (here.skip (opening.length + inner.length)).rest = tail := by
  have hinner : (here.skip opening.length).rest = inner ++ tail := Cursor.rest_skip_append hrest
  have hfresh : (here.skip opening.length).fresh = false := by
    rw [Cursor.fresh_skip hrest]
    exact freshAfterAll_of_last _ hlast hblank
  have hpos : 0 < opening.length := by
    cases opening with
    | nil => simp at hlast
    | cons => simp
  have hgives := h n stop tail _ hc hinner hfresh (by
    have hlength := congrArg List.length hrest
    rw [List.length_append] at hlength
    rw [Cursor.length_skip]
    omega)
  rw [Cursor.skip_skip] at hgives
  refine ⟨hgives, ?_⟩
  rw [← Cursor.skip_skip, Cursor.rest_skip, hinner, List.drop_left]

/-! ## Spellings are read as what they spell -/

/-- The first character of blanks and what stands behind them. -/
theorem head_of_padded {before : List Char} (more : List Char) (c : Char)
    (hb : ∀ c ∈ before, isBlank c = true) :
    ∃ first rest, before ++ c :: more = first :: rest ∧ (isBlank first = true ∨ first = c) := by
  cases before with
  | nil => exact ⟨c, more, rfl, Or.inr rfl⟩
  | cons b bs => exact ⟨b, bs ++ c :: more, rfl, Or.inl (hb b (by simp))⟩

theorem ne_of_first {first c d : Char} (h : isBlank first = true ∨ first = c)
    (hd : isBlank d = false) (hdc : c ≠ d) : first ≠ d := by
  rintro rfl
  rcases h with h | h
  · rw [h] at hd
    cases hd
  · exact hdc h.symm

theorem ne_of_isBlank {c d : Char} (h : isBlank c = true) (hd : isBlank d = false) : c ≠ d :=
  ne_of_first (c := c) (Or.inl h) hd (by rintro rfl; rw [h] at hd; cases hd)

theorem isBlank_of_takes {mode : Mode} {blanks : List Char} (h : Takes mode blanks) :
    ∀ c ∈ blanks, isBlank c = true := by
  cases mode with
  | math => exact h
  | text =>
    obtain rfl : blanks = [] := h
    simp
  | arguments => exact h.elim

/-- A notation that begins behind blanks that it takes along is no end of a
sequence. -/
theorem Closed.stopsAt_of_takes {mode : Mode} {stop : Option (List Char)}
    {tail before more : List Char}
    {here : Cursor} {c : Char} (hc : Closed mode stop tail) (hb : ∀ c ∈ before, isBlank c = true)
    (h : here.rest = before ++ c :: more) (hbrace : c ≠ '}') (hdollar : c ≠ '$')
    (hbackslash : c ≠ '\\') : stopsAt stop here = false := by
  obtain ⟨first, rest, hfirst, hor⟩ := head_of_padded more c hb
  rw [hfirst] at h
  exact hc.stopsAt_of_char h (ne_of_first hor (by decide) hbrace)
    (fun _ => ne_of_first hor (by decide) hdollar) (ne_of_first hor (by decide) hbackslash)

theorem head_behind {before : List Char} {c d : Char} (more : List Char)
    (hb : ∀ c ∈ before, isBlank c = true) (hd : isBlank d = false) (hc : c ≠ d) :
    ∀ e ∈ (before ++ c :: more).head?, e ≠ d := by
  obtain ⟨first, rest, hfirst, hor⟩ := head_of_padded more c hb
  rw [hfirst]
  simpa using ne_of_first hor hd hc

section Tokens

variable {mode : Mode} {fresh : Bool} {raw body : List Node} {before inner after text : List Char}

theorem renders_space {blanks : List Char} (hne : blanks ≠ []) (hb : ∀ c ∈ blanks, isBlank c = true)
    (ht : ∀ c ∈ text.head?, isBlank c = false)
    (hcomment : text.head? = some '%' →
      IsLines blanks ∨ fresh = false ∧ ∀ c ∈ blanks, isSpace c = true)
    (h : Renders .text (freshAfterAll fresh blanks) text raw) :
    Renders .text fresh (blanks ++ text) (spaceOf blanks :: raw) := by
  have hitem : Node.ofParseTree
      (.bare (if 2 ≤ countLineEndings blanks then .parbreak else .whitespace))
        = .ok (spaceOf blanks) := by
    by_cases hcount : 2 ≤ countLineEndings blanks <;> simp [spaceOf, Node.spaceNode, hcount] <;> rfl
  obtain ⟨b, bs, rfl⟩ := List.exists_cons_of_ne_nil hne
  have hblank := hb b (by simp)
  refine h.cons rfl _ hitem hne (by simpa using ne_of_isBlank hblank (by decide)) ?_
  intro n stop tail here hc hrest hfresh hn
  have hhead := hc.head_append (fun c => isBlank c = false) ht (by decide)
  refine ⟨hc.stopsAt_of_char hrest (ne_of_isBlank hblank (by decide))
    (fun _ => ne_of_isBlank hblank (by decide)) (ne_of_isBlank hblank (by decide)), ?_⟩
  refine finds_blanks hne hb hhead ?_ hrest
  -- a comment on a line of its own would take the blanks before it
  by_cases hpercent : text.head? = some '%'
  · obtain ⟨more, hmore⟩ : ∃ more, text = '%' :: more := by
      cases text with
      | nil => simp at hpercent
      | cons c more => exact ⟨more, by simpa using hpercent⟩
    rcases hcomment hpercent with ⟨rest, heq, hrestblank, hline⟩ | ⟨hnot, hspaces⟩
    · rw [heq] at hrest
      exact comment_eq_none_of_lines hrestblank hline hrest
    · rw [hmore, List.cons_append] at hrest
      exact comment_eq_none_of_spaces hne hspaces (hfresh.trans hnot) hrest
  · apply comment_eq_none
    rw [hrest, List.dropWhile_append_of_pos hb, dropWhile_of_head hhead]
    intro c hmem
    rcases mem_head?_append hmem with hmem | hmem
    · rintro rfl
      exact hpercent hmem
    · rcases hc.head c hmem with rfl | rfl | rfl <;> decide

theorem renders_stretch {blanks : List Char} (hne : blanks ≠ [])
    (hb : ∀ c ∈ blanks, isBlank c = true)
    (hl : whitespaceLength (blanks ++ text) = blanks.length)
    (ht : ∀ c ∈ (text.dropWhile isBlank).head?, takesBlanks c = false)
    (hcomment : (text.dropWhile isBlank).head? = some '%' →
      text.head? = some '%' ∧ fresh = false ∧ ∀ c ∈ blanks, isSpace c = true)
    (h : Renders .math (freshAfterAll fresh blanks) text raw) :
    Renders .math fresh (blanks ++ text) (.whitespace :: raw) := by
  obtain ⟨b, bs, rfl⟩ := List.exists_cons_of_ne_nil hne
  have hblank := hb b (by simp)
  refine h.cons rfl (.bare .whitespace) rfl hne
    (by simpa using ne_of_isBlank hblank (by decide)) ?_
  intro n stop tail here hc hrest hfresh hn
  refine ⟨hc.stopsAt_of_char hrest (ne_of_isBlank hblank (by decide))
    (fun _ => ne_of_isBlank hblank (by decide)) (ne_of_isBlank hblank (by decide)), ?_⟩
  have hbehind : ∀ c ∈ ((text ++ tail).dropWhile isBlank).head?,
      c ∈ (text.dropWhile isBlank).head? ∨ c = '}' ∨ c = '$' ∨ c = '\\' := fun c hmem =>
    (mem_head?_dropWhile_append text hc.isBlank_head hmem).imp_right (hc.head c)
  refine finds_math_blank hne hb hrest ?_ ?_ ?_
  · rw [← List.append_assoc, whitespaceLength_append_of_head _ hc.isBlank_head, hl]
  · intro c hmem
    rcases hbehind c hmem with hmem | rfl | rfl | rfl
    · exact ht c hmem
    all_goals rfl
  · by_cases hpercent : (text.dropWhile isBlank).head? = some '%'
    · obtain ⟨hhead, hnot, hspaces⟩ := hcomment hpercent
      obtain ⟨more, hmore⟩ : ∃ more, text = '%' :: more := by
        cases text with
        | nil => simp at hhead
        | cons c more => exact ⟨more, by simpa using hhead⟩
      rw [hmore, List.cons_append] at hrest
      exact comment_eq_none_of_spaces hne hspaces (hfresh.trans hnot) hrest
    · apply comment_eq_none
      rw [hrest, List.dropWhile_append_of_pos hb]
      intro c hmem
      rcases hbehind c hmem with hmem | rfl | rfl | rfl
      · rintro rfl
        exact hpercent hmem
      all_goals decide

theorem renders_string (content : String) (hne : content.toList ≠ [])
    (hw : ∀ c ∈ content.toList, isPlain c = true ∨ isPunctuation c = true)
    (hl : wordLength (content.toList ++ text) = content.toList.length)
    (h : Renders .text false text raw) :
    Renders .text fresh (content.toList ++ text) (.string content :: raw) := by
  have hnot : ∀ c ∈ content.toList, ∀ d, isPlain d = false → isPunctuation d = false → c ≠ d := by
    rintro c hc d hp hq rfl
    rcases hw c hc with h | h
    · rw [hp] at h
      cases h
    · rw [hq] at h
      cases h
  have hlast : freshAfterAll fresh content.toList = false := by
    have hmem := List.getLast_mem hne
    refine freshAfterAll_of_last fresh (List.getLast?_eq_some_getLast hne) ?_
    rcases hw _ hmem with hc | hc
    · exact isBlank_of_isPlain hc
    · exact isBlank_of_isPunctuation hc
  obtain ⟨d, ds, hd⟩ := List.exists_cons_of_ne_nil hne
  have hother := hnot d (by simp [hd])
  refine h.cons hlast (.chars content.toList) (by simp [ParseTree.chars, Node.ofParseTree]) hne
    (by simpa [hd] using hother '\x00' (by decide) (by decide)) ?_
  intro n stop tail here hc hrest hfresh hn
  have hcons : here.rest = d :: (ds ++ (text ++ tail)) := by simpa [hd] using hrest
  refine ⟨hc.stopsAt_of_char hcons (hother '}' (by decide) (by decide))
    (fun _ => hother '$' (by decide) (by decide)) (hother '\\' (by decide) (by decide)), ?_⟩
  have hword : Finds (token (Ahead.within Retrieval.fresh n) .text here) _ :=
    finds_word (hw d (by simp [hd])) hcons
  have hlength : wordLength here.rest = content.toList.length := by
    rw [hrest, ← List.append_assoc, wordLength_append (by simp [hd]) hc.sealed, hl]
  rw [hlength, Cursor.readText, hrest, List.take_left] at hword
  exact hword

theorem isBlank_of_isMathChar {c : Char} (h : isMathChar c = true) : isBlank c = false :=
  (isMathChar_iff.1 h).1

theorem ne_of_isMathChar {c d : Char} (h : isMathChar c = true) (hd : isMathChar d = false) :
    c ≠ d := by
  rintro rfl
  rw [h] at hd
  cases hd

theorem renders_char (c : Char) (hchar : isMathChar c = true) (h : Renders .math false text raw) :
    Renders .math fresh (c :: text) (.string (String.ofList [c]) :: raw) := by
  have hfresh : freshAfterAll fresh [c] = false :=
    freshAfterAll_concat fresh [] (isBlank_of_isMathChar hchar)
  refine h.cons hfresh (.chars [c]) rfl (by simp)
    (by simpa using ne_of_isMathChar hchar (by decide)) ?_
  intro n stop tail here hc hrest _ hn
  refine ⟨hc.stopsAt_of_char hrest (ne_of_isMathChar hchar (by decide))
    (fun _ => ne_of_isMathChar hchar (by decide)) (ne_of_isMathChar hchar (by decide)), ?_⟩
  exact finds_mathChar hchar hrest

theorem renders_mark (c : Char) (hmark : c = '&' ∨ c = '#') (ha : Around mode before after text)
    (h : Renders mode (freshAfterAll false after) text raw) :
    Renders mode fresh (before ++ c :: after ++ text) (.string (String.ofList [c]) :: raw) := by
  obtain ⟨hbefore, hafter, ht⟩ := ha
  have hb := isBlank_of_takes hbefore
  have hblank : isBlank c = false := by rcases hmark with rfl | rfl <;> decide
  have hfresh : freshAfterAll fresh (before ++ c :: after) = freshAfterAll false after := by
    rw [show before ++ c :: after = before ++ [c] ++ after by simp, freshAfterAll_append,
      freshAfterAll_concat fresh before hblank]
  refine h.cons hfresh (.chars [c]) rfl (by simp)
    (head_behind after hb (by decide) (by rcases hmark with rfl | rfl <;> decide)) ?_
  intro n stop tail here hc hrest _ hn
  have hcons : here.rest = before ++ c :: (after ++ (text ++ tail)) := by simpa using hrest
  refine ⟨hc.stopsAt_of_takes hb hcons (by rcases hmark with rfl | rfl <;> decide)
    (by rcases hmark with rfl | rfl <;> decide) (by rcases hmark with rfl | rfl <;> decide), ?_⟩
  have hlength : (before ++ c :: after).length = before.length + 1 + after.length := by
    simp only [List.length_append, List.length_cons]
    omega
  rw [hlength]
  cases mode with
  | math =>
    exact finds_math_mark hmark hb hcons (isBlank_of_takes hafter)
      (hc.head_append (fun c => isBlank c = false) (ht rfl) (by decide))
  | text =>
    obtain rfl : before = [] := hbefore
    obtain rfl : after = [] := hafter
    exact finds_text_mark hmark hcons
  | arguments => exact hbefore.elim

theorem renders_command (name : String) (hn : IsCommandName name.toList)
    (ht : ∀ c ∈ text.head?, isLetter c = false) (hargs : ¬ OpensArguments text)
    (h : Renders mode false text raw) :
    Renders mode fresh ('\\' :: name.toList ++ text) (.command name none :: raw) := by
  have hfresh : freshAfterAll fresh ('\\' :: name.toList) = false := by
    have hmem := List.getLast_mem hn.ne_nil
    refine freshAfterAll_of_last fresh ?_ (c := name.toList.getLast hn.ne_nil) ?_
    · rw [List.getLast?_cons, List.getLast?_eq_some_getLast hn.ne_nil]
      rfl
    · exact isBlank_of_isLetter (hn.letters _ hmem)
  refine h.cons hfresh (.record .command (some (String.ofList name.toList)) none none false none) ?_
    (by simp) (by simp) ?_
  · rw [String.ofList_toList]
    rfl
  · intro n stop tail here hc hrest _ hlength
    have hfollow := hc.head_append (fun c => isLetter c = false) ht (by decide)
    refine ⟨?_, finds_command hn hrest hfollow (by simp) (hc.not_opensArguments hargs) mode⟩
    obtain ⟨d, ds, hd⟩ := List.exists_cons_of_ne_nil hn.ne_nil
    have hcons : here.rest = '\\' :: d :: (ds ++ (text ++ tail)) := by simpa [hd] using hrest
    refine hc.stopsAt_of_backslash hcons ?_ fun other => ?_
    · rintro rfl
      have := hn.letters ']' (by simp [hd])
      revert this
      decide
    · have hnot : (['e', 'n', 'd'] ++ '{' :: (other ++ ['}'])).isPrefixOf
          (name.toList ++ (text ++ tail)) = false :=
        name_not_letters (List.all_eq_true.1 rfl) rfl hn.letters hn.ne_end hfollow
      simpa [Cursor.sees, hrest, endTag, List.isPrefixOf] using hnot

theorem renders_symbol (c : Char) (hl : isLetter c = false) (hb : isBlank c = false)
    (hsymbol : c ≠ '[' ∧ c ≠ ']' ∧ c ≠ '(') (hargs : ¬ OpensArguments text)
    (h : Renders mode false text raw) :
    Renders mode fresh ('\\' :: c :: text) (.command (String.ofList [c]) none :: raw) := by
  have hfresh : freshAfterAll fresh ['\\', c] = false := freshAfterAll_concat fresh ['\\'] hb
  refine h.cons hfresh
    (.record .command (some (String.ofList [c])) none none false none) rfl (by simp) (by simp) ?_
  intro n stop tail here hc hrest _ hlength
  have hcons : here.rest = '\\' :: c :: (text ++ tail) := hrest
  refine ⟨hc.stopsAt_of_backslash hcons hsymbol.2.1 (sees_endTag_eq_false hcons ?_), ?_⟩
  · rintro rfl
    revert hl
    decide
  · have hmath : ∀ d, c ≠ d → here.sees ['\\', d] = false := fun d hd => by
      simp [Cursor.sees, hcons, List.isPrefixOf, hd.symm]
    exact finds_token_of_char (by simp) hcons hl
      (finds_delimitedMath_none _ .brackets (hmath '[' hsymbol.1))
      (finds_delimitedMath_none _ .parentheses (hmath '(' hsymbol.2.2))
      (hc.not_opensArguments hargs) mode

theorem renders_group (ha : Around mode before after text) (hbody : Renders .text false inner body)
    (h : Renders mode (freshAfterAll false after) text raw) :
    Renders mode fresh (before ++ '{' :: inner ++ '}' :: after ++ text) (.group body :: raw) := by
  obtain ⟨items, hitems, hreads⟩ := hbody
  obtain ⟨hbefore, hafter, ht⟩ := ha
  have hb := isBlank_of_takes hbefore
  have hfresh : freshAfterAll fresh (before ++ '{' :: inner ++ '}' :: after)
      = freshAfterAll false after := by
    have hsplit : before ++ '{' :: inner ++ '}' :: after
        = before ++ '{' :: inner ++ ['}'] ++ after := by simp
    rw [hsplit, freshAfterAll_append, freshAfterAll_concat fresh _ (by decide)]
  refine h.cons hfresh (.enclosing .group items) ?_ (by simp)
    (by simpa using head_behind (inner ++ '}' :: after) hb (by decide) (by decide)) ?_
  · simp only [ParseTree.enclosing, Node.ofParseTree, Node.ofContent, hitems]
    rfl
  · intro n stop tail here hc hrest _ hn
    have hcons : here.rest = before ++ '{' :: (inner ++ '}' :: (after ++ (text ++ tail))) := by
      simpa using hrest
    refine ⟨hc.stopsAt_of_takes hb hcons (by decide) (by decide) (by decide), ?_⟩
    have hopen : here.rest = (before ++ ['{']) ++ (inner ++ '}' :: (after ++ (text ++ tail))) := by
      simpa using hcons
    obtain ⟨hgives, hstop⟩ := hreads.nested (c := '{') (.brace _) (by simp) (by decide) hopen hn
    have hinner := Cursor.rest_skip_append hcons
    rw [List.length_append, List.length_singleton, ← Cursor.skip_skip] at hgives
    have hgroup := finds_group (by simp) hinner hgives
      (by simpa [Nat.add_assoc] using hstop)
    rw [Cursor.skip_skip] at hgroup
    have hnext :
        (here.skip (before.length + 1 + inner.length + 1)).rest = after ++ (text ++ tail) := by
      rw [← Cursor.skip_skip, Cursor.rest_skip]
      simp only [List.length_append, List.length_singleton] at hstop
      rw [hstop]
      rfl
    cases mode with
    | math =>
      have hfinds := finds_math_group hb hcons (isBlank_of_takes hafter)
        (hc.head_append (fun c => isBlank c = false) (ht rfl) (by decide)) hnext hgroup
      rw [Cursor.skip_skip] at hfinds
      have hlength : (before ++ '{' :: inner ++ '}' :: after).length
          = before.length + 1 + inner.length + 1 + after.length := by
        simp only [List.length_append, List.length_cons]
        omega
      rwa [hlength]
    | text =>
      obtain rfl : before = [] := hbefore
      obtain rfl : after = [] := hafter
      have hfinds := finds_token_group hinner hgroup
      have hlength : ('{' :: inner ++ ['}']).length = 0 + 1 + inner.length + 1 := by
        simp only [List.length_append, List.length_cons, List.length_nil]
        omega
      rw [List.nil_append, hlength]
      exact hfinds
    | arguments => exact hbefore.elim

/-- The mark of a script behind the blanks that go with it. -/
theorem finds_script_behind {ahead : Ahead} {here : Cursor} {more : List Char} {mark : Mark}
    {found : Found} (ht : Takes mode before) (h : here.rest = before ++ mark.char :: more)
    (hscript : Finds (script ahead (here.skip before.length)) (some found)) :
    Finds (token ahead mode here) (some found) := by
  cases mode with
  | math => exact finds_math_script (isBlank_of_takes ht) h hscript
  | text =>
    obtain rfl : before = [] := ht
    exact finds_text_script h (by simpa using hscript)
  | arguments => exact ht.elim

theorem renders_scriptChar (mark : Mark) (c : Char) (ht : Takes mode before)
    (hchar : isMathChar c = true) (h : Renders mode false text raw) :
    Renders mode fresh (before ++ [mark.char, c] ++ text)
      (.script mark (some (.string (String.ofList [c]))) :: raw) := by
  obtain ⟨kind, hkind, hnode⟩ := scriptKind_char mark
  have hb := isBlank_of_takes ht
  have hfresh : freshAfterAll fresh (before ++ [mark.char, c]) = false := by
    rw [show before ++ [mark.char, c] = before ++ [mark.char] ++ [c] by simp]
    exact freshAfterAll_concat fresh _ (isBlank_of_isMathChar hchar)
  refine h.cons hfresh (.record kind none (some (.chars [c])) none false none) ?_ (by simp)
    (head_behind [c] hb (by decide) (by cases mark <;> decide)) ?_
  · rw [hnode]
    rfl
  · intro n stop tail here hc hrest _ hn
    have hcons : here.rest = before ++ mark.char :: (c :: (text ++ tail)) := by simpa using hrest
    refine ⟨hc.stopsAt_of_takes hb hcons (by cases mark <;> decide) (by cases mark <;> decide)
      (by cases mark <;> decide), finds_script_behind ht hcons ?_⟩
    have hmark := Cursor.rest_skip_append hcons
    have hbase : ((here.skip before.length).skip 1).rest = c :: (text ++ tail) := by
      rw [Cursor.rest_skip, hmark]
      rfl
    -- the base is one token, read one level deeper
    obtain ⟨m, rfl⟩ : ∃ m, n = m + 1 := by
      refine ⟨n - 1, ?_⟩
      rw [hcons] at hn
      simp only [List.length_append, List.length_cons] at hn
      omega
    have htoken : Finds ((Ahead.within Retrieval.fresh (m + 1)).token .math
        ((here.skip before.length).skip 1)) _ := finds_mathChar hchar hbase
    have hscript := finds_script_of_base hmark hkind (isBlank_of_isMathChar hchar)
      (finds_scriptBase_char hbase hchar htoken)
    rw [Cursor.skip_skip, Cursor.skip_skip] at hscript
    simpa [Nat.add_assoc] using hscript

theorem renders_scriptGroup (mark : Mark) (ht : Takes mode before)
    (hbody : Renders .text false inner body) (h : Renders mode false text raw) :
    Renders mode fresh (before ++ [mark.char, '{'] ++ inner ++ ['}'] ++ text)
      (.script mark (some (.group body)) :: raw) := by
  obtain ⟨kind, hkind, hnode⟩ := scriptKind_char mark
  obtain ⟨items, hitems, hreads⟩ := hbody
  have hb := isBlank_of_takes ht
  have hfresh : freshAfterAll fresh (before ++ [mark.char, '{'] ++ inner ++ ['}']) = false :=
    freshAfterAll_concat fresh _ (by decide)
  have hnull := head_behind ('{' :: (inner ++ ['}'])) hb (by decide)
    (show mark.char ≠ '\x00' by cases mark <;> decide)
  refine h.cons hfresh (.record kind none (some (.enclosing .group items)) none false none) ?_
    (by simp) (by simpa using hnull) ?_
  · rw [hnode, Node.ofBase]
    simp only [ParseTree.enclosing, Node.ofParseTree, Node.ofContent, hitems]
    rfl
  · intro n stop tail here hc hrest _ hn
    have hcons : here.rest = before ++ mark.char :: ('{' :: (inner ++ '}' :: (text ++ tail))) := by
      simpa using hrest
    refine ⟨hc.stopsAt_of_takes hb hcons (by cases mark <;> decide) (by cases mark <;> decide)
      (by cases mark <;> decide), finds_script_behind ht hcons ?_⟩
    have hmark := Cursor.rest_skip_append hcons
    have hbrace : ((here.skip before.length).skip 1).rest
        = '{' :: (inner ++ '}' :: (text ++ tail)) := by
      rw [Cursor.rest_skip, hmark]
      rfl
    have hopen : here.rest = (before ++ [mark.char, '{']) ++ (inner ++ '}' :: (text ++ tail)) := by
      simpa using hcons
    obtain ⟨hgives, hstop⟩ := hreads.nested (c := '{') (.brace _) (by simp) (by decide) hopen hn
    have hlength : (before ++ [mark.char, '{']).length = before.length + 1 + 1 := by simp
    rw [hlength, ← Cursor.skip_skip, ← Cursor.skip_skip] at hgives
    rw [hlength] at hstop
    have hscript := finds_script_of_base hmark hkind (by decide)
      (finds_scriptBase_group hbrace (finds_group (by simp) hbrace hgives hstop))
    rw [Cursor.skip_skip] at hscript
    have hwhole : (before ++ [mark.char, '{'] ++ inner ++ ['}']).length
        = before.length + 1 + 1 + inner.length + 1 := by
      simp only [List.length_append, List.length_cons, List.length_nil]
    rwa [hwhole]

theorem isBlank_of_seated {sameline : Bool} (h : Seated fresh before sameline) :
    ∀ c ∈ before, isBlank c = true := by
  cases sameline with
  | true =>
    obtain rfl : before = [] := h.1
    simp
  | false =>
    rcases h with ⟨-, h⟩ | h
    · exact fun c hc => by simp [isBlank, h c hc]
    · exact h.isBlank

/-- In math no notation begins with a dollar. -/
theorem Spelled.head_math (h : Spelled mode fresh raw text) (hmode : mode = .math) :
    ∀ c ∈ text.head?, c ≠ '$' := by
  cases h with
  | nil => simp
  | space | string | inlineMath => cases hmode
  | stretch hne hb =>
    obtain ⟨b, bs, rfl⟩ := List.exists_cons_of_ne_nil hne
    simpa using ne_of_isBlank (hb b (by simp)) (by decide)
  | char c hc => simpa using ne_of_isMathChar hc (by decide)
  | @mark _ _ _ _ after text c hc ha =>
    simpa using head_behind (after ++ text) (isBlank_of_takes ha.1) (by decide)
      (show c ≠ '$' by rcases hc with rfl | rfl <;> decide)
  | @group _ _ _ _ _ inner after text ha =>
    simpa using head_behind (inner ++ '}' :: (after ++ text)) (isBlank_of_takes ha.1) (by decide)
      (show '{' ≠ '$' by decide)
  | @scriptChar _ _ _ _ text mark c ht =>
    simpa using head_behind (c :: text) (isBlank_of_takes ht) (by decide)
      (show mark.char ≠ '$' by cases mark <;> decide)
  | @scriptGroup _ _ _ _ _ inner text mark ht =>
    simpa using head_behind ('{' :: (inner ++ '}' :: text)) (isBlank_of_takes ht) (by decide)
      (show mark.char ≠ '$' by cases mark <;> decide)
  | @comment _ _ _ _ ending text content sameline hc hs =>
    simpa using head_behind (content.toList ++ (ending ++ text)) (isBlank_of_seated hs) (by decide)
      (show '%' ≠ '$' by decide)
  | command | symbol | displayMath | verb => simp
  | verbatim | commentEnvironment | environment | mathEnvironment => simp [beginTag]

theorem renders_inlineMath (hne : inner ≠ []) (hs : Spelled .math false body inner)
    (hbody : Renders .math false inner body) (h : Renders .text false text raw) :
    Renders .text fresh ('$' :: inner ++ ['$'] ++ text) (.inlineMath body :: raw) := by
  obtain ⟨items, hitems, hreads⟩ := hbody
  have hfresh : freshAfterAll fresh ('$' :: inner ++ ['$']) = false :=
    freshAfterAll_concat fresh _ (by decide)
  refine h.cons hfresh (.enclosing .inlineMath items) ?_ (by simp) (by simp) ?_
  · simp only [ParseTree.enclosing, Node.ofParseTree, Node.ofContent, hitems]
    rfl
  · intro n stop tail here hc hrest _ hn
    have hopen : here.rest = ['$'] ++ (inner ++ '$' :: (text ++ tail)) := by simpa using hrest
    refine ⟨?_, ?_⟩
    · -- in running text nothing is closed by a dollar
      cases hc with
      | atEnd => rfl
      | brace | tag => exact Cursor.sees_eq_false hopen (by decide)
    · obtain ⟨d, ds, rfl⟩ := List.exists_cons_of_ne_nil hne
      have hdollar : d ≠ '$' := hs.head_math rfl d (by simp)
      obtain ⟨hgives, hstop⟩ := hreads.nested (c := '$') (.dollar _) rfl (by decide) hopen hn
      have hfinds := finds_dollar (by simp) hopen hdollar hgives hstop
      rw [Cursor.skip_skip] at hfinds
      have hlength : ('$' :: (d :: ds) ++ ['$']).length = ['$'].length + (d :: ds).length + 1 := by
        simp only [List.length_append, List.length_cons, List.length_nil]
        omega
      rwa [hlength]

theorem renders_displayMath (hbody : Renders .math false inner body)
    (h : Renders mode false text raw) :
    Renders mode fresh (['\\', '['] ++ inner ++ ['\\', ']'] ++ text)
      (.displayMath body :: raw) := by
  obtain ⟨items, hitems, hreads⟩ := hbody
  have hfresh : freshAfterAll fresh (['\\', '['] ++ inner ++ ['\\', ']']) = false := by
    rw [freshAfterAll_append]
    exact freshAfterAll_concat _ ['\\'] (by decide)
  refine h.cons hfresh (.enclosing .displayMath items) ?_ (by simp) (by simp) ?_
  · simp only [ParseTree.enclosing, Node.ofParseTree, Node.ofContent, hitems]
    rfl
  · intro n stop tail here hc hrest _ hn
    have hopen : here.rest = ['\\', '['] ++ (inner ++ '\\' :: ']' :: (text ++ tail)) := by
      simpa using hrest
    refine ⟨hc.stopsAt_of_backslash hopen (by decide) (sees_endTag_eq_false hopen (by decide)), ?_⟩
    obtain ⟨hgives, hstop⟩ := hreads.nested (c := '[') (.brackets _) rfl (by decide) hopen hn
    have hfinds := finds_brackets (by simp) hopen hgives hstop mode
    rw [Cursor.skip_skip] at hfinds
    have hlength : (['\\', '['] ++ inner ++ ['\\', ']']).length
        = ['\\', '['].length + inner.length + 2 := by
      simp only [List.length_append, List.length_cons, List.length_nil]
    rwa [hlength]

theorem isBlank_of_isWhiteSpace {c : Char} (h : Text.isWhiteSpace c = false) :
    isBlank c = false := by
  cases hb : isBlank c with
  | false => rfl
  | true => rcases isBlank_iff.1 hb with (rfl | rfl) | rfl | rfl <;> revert h <;> decide

theorem renders_verb (delimiter : Char) (content : String) (hl : isLetter delimiter = false)
    (hw : Text.isWhiteSpace delimiter = false) (hcontent : delimiter ∉ content.toList)
    (h : Renders mode false text raw) :
    Renders mode fresh
      (['\\', 'v', 'e', 'r', 'b'] ++ delimiter :: content.toList ++ [delimiter] ++ text)
      (.verb delimiter content :: raw) := by
  have hfresh : freshAfterAll fresh
      (['\\', 'v', 'e', 'r', 'b'] ++ delimiter :: content.toList ++ [delimiter]) = false :=
    freshAfterAll_concat fresh _ (isBlank_of_isWhiteSpace hw)
  refine h.cons hfresh
    (.record .verb none (some (.chars content.toList)) none false (some delimiter)) ?_ (by simp)
    (by simp) ?_
  · rw [ParseTree.chars, String.ofList_toList]
    rfl
  · intro n stop tail here hc hrest _ hn
    have hcons : here.rest = '\\' :: 'v' :: 'e' :: 'r' :: 'b' :: delimiter
        :: (content.toList ++ delimiter :: (text ++ tail)) := by simpa using hrest
    refine ⟨hc.stopsAt_of_backslash hcons (by decide) (sees_endTag_eq_false hcons (by decide)), ?_⟩
    have hlength : (['\\', 'v', 'e', 'r', 'b'] ++ delimiter :: content.toList
        ++ [delimiter]).length = content.toList.length + 7 := by
      simp only [List.length_append, List.length_cons, List.length_nil]
      omega
    rw [hlength]
    exact finds_verb hl hw hcontent hcons mode

theorem renders_verbatim (content : String)
    (hcontent : ¬ endTag verbatimName.toList <:+: content.toList)
    (h : Renders mode false text raw) :
    Renders mode fresh
      (beginTag verbatimName.toList ++ content.toList ++ endTag verbatimName.toList ++ text)
      (.verbatim content :: raw) := by
  have hfresh : freshAfterAll fresh
      (beginTag verbatimName.toList ++ content.toList ++ endTag verbatimName.toList) = false :=
    freshAfterAll_endTag fresh _ _
  refine h.cons hfresh (.literal .verbatim content.toList) ?_ (by simp [beginTag])
    (by simp [beginTag]) ?_
  · rw [ParseTree.literal, String.ofList_toList]
    rfl
  · intro n stop tail here hc hrest _ hn
    have hbegin : here.rest = beginTag verbatimName.toList
        ++ (content.toList ++ endTag verbatimName.toList ++ (text ++ tail)) := by
      simpa using hrest
    have hcons : here.rest = '\\' :: 'b' :: here.rest.tail.tail := by rw [hbegin]; rfl
    refine ⟨hc.stopsAt_of_backslash hcons (by decide) (sees_endTag_eq_false hcons (by decide)), ?_⟩
    simpa [List.length_append, Nat.add_assoc] using finds_verbatim hcontent hbegin mode

theorem renders_commentEnvironment (content : String)
    (hcontent : ¬ endTag commentName.toList <:+: content.toList) (h : Renders mode true text raw) :
    Renders mode fresh
      (beginTag commentName.toList ++ content.toList ++ endTag commentName.toList ++ ['\n'] ++ text)
      (.commentEnvironment content :: raw) := by
  have hfresh : freshAfterAll fresh
      (beginTag commentName.toList ++ content.toList ++ endTag commentName.toList ++ ['\n'])
        = true := by
    rw [freshAfterAll_append]
    rfl
  refine h.cons hfresh (.literal .commentEnvironment content.toList) ?_ (by simp [beginTag])
    (by simp [beginTag]) ?_
  · rw [ParseTree.literal, String.ofList_toList]
    rfl
  · intro n stop tail here hc hrest _ hn
    have hbegin : here.rest = beginTag commentName.toList
        ++ (content.toList ++ endTag commentName.toList ++ ('\n' :: (text ++ tail))) := by
      simpa using hrest
    have hcons : here.rest = '\\' :: 'b' :: here.rest.tail.tail := by rw [hbegin]; rfl
    refine ⟨hc.stopsAt_of_backslash hcons (by decide) (sees_endTag_eq_false hcons (by decide)), ?_⟩
    simpa [List.length_append, Nat.add_assoc, lineEndingLength]
      using finds_commentEnvironment hcontent hbegin mode

/-- A comment is found where it is seated. -/
theorem comment_of_seated {sameline : Bool} {here : Cursor} {more : List Char}
    (h : Seated here.fresh before sameline) (hrest : here.rest = before ++ '%' :: more) :
    comment? here = some (commentBody (here.skip before.length) sameline) := by
  cases sameline with
  | true =>
    obtain ⟨rfl, hfresh⟩ := h
    exact comment_of_sameline hfresh hrest
  | false =>
    rcases h with ⟨hfresh, hspaces⟩ | ⟨margin, rfl, hmargin⟩
    · exact comment_of_fresh hspaces hfresh hrest
    · exact comment_of_line hmargin hrest

theorem renders_comment {ending : List Char} (content : String) (sameline : Bool)
    (hcontent : ∀ c ∈ content.toList, isLineBreak c = false)
    (hs : Seated fresh before sameline) (he : EndsComment ending text)
    (h : Renders mode (freshAfterAll false ending) text raw) :
    Renders mode fresh (before ++ '%' :: content.toList ++ ending ++ text)
      (.comment content sameline :: raw) := by
  have hb := isBlank_of_seated hs
  have hfresh : freshAfterAll fresh (before ++ '%' :: content.toList ++ ending)
      = freshAfterAll false ending := by
    -- behind the percent sign nothing ends the line any more
    have hfold : ∀ cs : List Char, (∀ c ∈ cs, isLineBreak c = false) →
        freshAfterAll false cs = false := by
      intro cs hcs
      induction cs with
      | nil => rfl
      | cons c cs ih =>
        show freshAfterAll (Cursor.freshAfter false c) cs = false
        rw [show Cursor.freshAfter false c = false by simp [Cursor.freshAfter, hcs c (by simp)]]
        exact ih fun d hd => hcs d (by simp [hd])
    rw [show before ++ '%' :: content.toList ++ ending
        = before ++ ['%'] ++ content.toList ++ ending by simp,
      freshAfterAll_append, freshAfterAll_append, freshAfterAll_concat fresh before (by decide),
      hfold _ hcontent]
  have hnull := head_behind (content.toList ++ ending) hb (by decide)
    (show '%' ≠ '\x00' by decide)
  refine h.cons hfresh (.record .comment none (some (.chars content.toList)) none sameline none) ?_
    (by simp) (by simpa using hnull) ?_
  · rw [ParseTree.chars, String.ofList_toList]
    rfl
  · intro n stop tail here hc hrest hhere hn
    have hcons : here.rest = before ++ '%' :: (content.toList ++ (ending ++ (text ++ tail))) := by
      simpa using hrest
    refine ⟨hc.stopsAt_of_takes hb hcons (by decide) (by decide) (by decide), ?_⟩
    obtain ⟨first, rest, hfirst, hor⟩ := head_of_padded
      (content.toList ++ (ending ++ (text ++ tail))) '%' hb
    apply finds_comment (hcons.trans hfirst) (ne_of_first hor (by decide) (by decide))
      (ne_of_first hor (by decide) (by decide)) _ mode
    rw [comment_of_seated (hhere ▸ hs) hcons]
    have hbody : (here.skip before.length).rest
        = '%' :: content.toList ++ (ending ++ (text ++ tail)) := Cursor.rest_skip_append hcons
    have hparbreak : ∀ cs, parbreakLength (cs ++ tail) = parbreakLength cs := fun cs =>
      parbreakLength_append_of_head cs hc.isBlank_head
    rcases he with ⟨rfl, hp⟩ | ⟨rfl, hline, hp⟩
    · rw [commentBody_of_line hcontent hbody (by rw [← hp]; exact hparbreak ('\n' :: text)),
        Cursor.skip_skip]
      have hlength : (before ++ '%' :: content.toList ++ ['\n']).length
          = before.length + (content.toList.length + 2) := by
        simp only [List.length_append, List.length_cons, List.length_nil]
        omega
      rw [hlength]
    · obtain ⟨more, rfl⟩ : ∃ more, text = '\n' :: more := by
        cases text with
        | nil => simp at hline
        | cons c more => exact ⟨more, by simpa using hline⟩
      rw [commentBody_of_lines hcontent hbody (by
        rw [← hparbreak] at hp
        exact hp), Cursor.skip_skip]
      have hlength : (before ++ '%' :: content.toList ++ []).length
          = before.length + (content.toList.length + 1) := by
        simp only [List.length_append, List.length_cons, List.length_nil]
        omega
      rw [hlength]

theorem renders_environment (name : String) (hn : IsEnvironmentName name.toList)
    (hargs : ¬ OpensArguments inner) (hbody : Renders .text false inner body)
    (h : Renders mode false text raw) :
    Renders mode fresh (beginTag name.toList ++ inner ++ endTag name.toList ++ text)
      (.environment name none body :: raw) := by
  obtain ⟨items, hitems, hreads⟩ := hbody
  have hfresh : freshAfterAll fresh (beginTag name.toList ++ inner ++ endTag name.toList) = false :=
    freshAfterAll_endTag fresh _ _
  refine h.cons hfresh (.record .environment (some (String.ofList name.toList)) (some (.list items))
    none false none) ?_ (by simp [beginTag]) (by simp [beginTag]) ?_
  · rw [String.ofList_toList]
    simp only [Node.ofParseTree, Node.ofContent, hitems]
    rfl
  · intro n stop tail here hc hrest _ hlength
    have hbegin : here.rest = beginTag name.toList
        ++ (inner ++ (endTag name.toList ++ (text ++ tail))) := by
      simpa using hrest
    have hcons : here.rest = '\\' :: 'b' :: here.rest.tail.tail := by rw [hbegin]; rfl
    refine ⟨hc.stopsAt_of_backslash hcons (by decide) (sees_endTag_eq_false hcons (by decide)), ?_⟩
    have hclosed : Closed .text _ (endTag name.toList ++ (text ++ tail)) := .tag name.toList _
    obtain ⟨hgives, hstop⟩ := hreads.nested (c := '}') hclosed (getLast?_beginTag _) (by decide)
      hbegin hlength
    have hfinds := finds_environment (by simp) hn hbegin (hclosed.not_opensArguments hargs) hgives
      hstop mode
    rw [Cursor.skip_skip] at hfinds
    rwa [List.length_append, List.length_append]

theorem renders_mathEnvironment (name : String) (hn : IsMathName name.toList)
    (hbody : Renders .math false inner body) (h : Renders mode false text raw) :
    Renders mode fresh (beginTag name.toList ++ inner ++ endTag name.toList ++ text)
      (.mathEnvironment name body :: raw) := by
  obtain ⟨items, hitems, hreads⟩ := hbody
  have hfresh : freshAfterAll fresh (beginTag name.toList ++ inner ++ endTag name.toList) = false :=
    freshAfterAll_endTag fresh _ _
  refine h.cons hfresh (.record .mathEnvironment (some (String.ofList name.toList))
    (some (.list items)) none false none) ?_ (by simp [beginTag]) (by simp [beginTag]) ?_
  · rw [String.ofList_toList]
    simp only [Node.ofParseTree, Node.ofContent, hitems]
    rfl
  · intro n stop tail here hc hrest _ hlength
    have hbegin : here.rest = beginTag name.toList
        ++ (inner ++ (endTag name.toList ++ (text ++ tail))) := by
      simpa using hrest
    have hcons : here.rest = '\\' :: 'b' :: here.rest.tail.tail := by rw [hbegin]; rfl
    refine ⟨hc.stopsAt_of_backslash hcons (by decide) (sees_endTag_eq_false hcons (by decide)), ?_⟩
    obtain ⟨hgives, hstop⟩ := hreads.nested (c := '}') (.tag name.toList _) (getLast?_beginTag _)
      (by decide) hbegin hlength
    have hfinds := finds_mathEnvironment (by simp) hn hbegin hgives hstop mode
    rw [Cursor.skip_skip] at hfinds
    rwa [List.length_append, List.length_append]

end Tokens

theorem Spelled.renders {mode : Mode} {fresh : Bool} {raw : List Node} {text : List Char}
    (h : Spelled mode fresh raw text) : Renders mode fresh text raw := by
  induction h with
  | nil => exact ⟨[], rfl, readsAs_nil⟩
  | space hne hb ht hcomment _ ih => exact renders_space hne hb ht hcomment ih
  | stretch hne hb hl ht hcomment _ ih => exact renders_stretch hne hb hl ht hcomment ih
  | string content hne hc hl _ ih => exact renders_string content hne hc hl ih
  | char c hc _ ih => exact renders_char c hc ih
  | mark c hc ha _ ih => exact renders_mark c hc ha ih
  | command name hn ht hargs _ ih => exact renders_command name hn ht hargs ih
  | symbol c hl hb hc hargs _ ih => exact renders_symbol c hl hb hc hargs ih
  | group ha _ _ ihb ih => exact renders_group ha ihb ih
  | scriptChar mark c ht hc _ ih => exact renders_scriptChar mark c ht hc ih
  | scriptGroup mark ht _ _ ihb ih => exact renders_scriptGroup mark ht ihb ih
  | inlineMath hne hs _ ihb ih => exact renders_inlineMath hne hs ihb ih
  | displayMath _ _ ihb ih => exact renders_displayMath ihb ih
  | verb delimiter content hl hw hc _ ih => exact renders_verb delimiter content hl hw hc ih
  | verbatim content hc _ ih => exact renders_verbatim content hc ih
  | commentEnvironment content hc _ ih => exact renders_commentEnvironment content hc ih
  | comment content sameline hc hs he _ ih => exact renders_comment content sameline hc hs he ih
  | environment name hn hargs _ _ ihb ih => exact renders_environment name hn hargs ihb ih
  | mathEnvironment name hn _ _ ihb ih => exact renders_mathEnvironment name hn ihb ih

/-- A document whose sequence reaches the end of the text is built from what the
sequence holds. -/
theorem parse_of_gives {text : List Char} {stop : Cursor} {trees : List ParseTree}
    {nodes : List Node} (hstop : stop.rest = []) (htrees : Node.ofItems trees = .ok nodes)
    (h : Gives ((Ahead.within Retrieval.fresh (text.length + 1)).sequence .text none
      (Cursor.start text)) (stop, trees)) :
    parse (String.ofList text) = .ok (.list nodes) := by
  have hsequence : (readSequence Retrieval.fresh text).1 = (stop, trees) := h Memory.blank
  have hread : readDocument (String.ofList text) = .ok (.list trees) := by
    unfold readDocument
    rw [String.toList_ofList, readDocumentBy_cached]
    unfold readDocumentBy
    generalize readSequence Retrieval.fresh text = result at hsequence
    obtain ⟨⟨last, items⟩, memory⟩ := result
    cases hsequence
    simp [hstop]
  unfold parse
  rw [hread]
  simp only [Node.ofParseTree, htrees]
  rfl

/-- A document is read as what it spells. -/
theorem parse_spelled {raw : List Node} {text : List Char} (h : Spelled .text true raw text) :
    parse (String.ofList text) = .ok (.list raw) := by
  obtain ⟨trees, htrees, hreads⟩ := h.renders
  have hgives := hreads (text.length + 1) none [] (Cursor.start text) .atEnd
    (by simp [Cursor.start]) rfl (by simp [Cursor.start])
  exact parse_of_gives (by simp [Cursor.start]) htrees hgives

end LatexFormatter
