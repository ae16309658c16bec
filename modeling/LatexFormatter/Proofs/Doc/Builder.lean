import LatexFormatter.Doc.OfNode
import LatexFormatter.Proofs.Doc.Strands

/-
  What a builder has built, as strands. Each operation of the builder adds its
  strands behind those that are there already; how they are grouped into pieces
  and fills makes no difference. Lines after the first are indented by whole
  levels only, so a margin is a run of tabs or of spaces.
-/

namespace LatexFormatter.Doc

/-! ## Levels of indentation -/

/-- The indentation after a number of levels. -/
def levels (options : LayoutOptions) : Nat → Indentation
  | 0 => {}
  | depth + 1 => (levels options depth).indent options

/-- What a line at a level of indentation starts with. -/
def levelText (options : LayoutOptions) (depth : Nat) : List Char :=
  if options.useTabs then List.replicate depth '\t'
  else List.replicate (depth * options.tabWidth) ' '

theorem levels_roots (options : LayoutOptions) (depth : Nat) :
    (levels options depth).roots = [] := by
  induction depth with
  | zero => rfl
  | succ depth ih => simpa [levels, Indentation.indent, Indentation.push] using ih

theorem levels_parts (options : LayoutOptions) (depth : Nat) :
    (levels options depth).margin.parts = List.replicate depth .level := by
  induction depth with
  | zero => rfl
  | succ depth ih =>
    simp only [levels, Indentation.indent, Indentation.push, Margin.ofParts]
    rw [ih, List.replicate_succ']

theorem levels_margin (options : LayoutOptions) (depth : Nat) :
    (levels options depth).margin = Margin.ofParts options (List.replicate depth .level) := by
  cases depth with
  | zero => rfl
  | succ depth =>
    simp only [levels, Indentation.indent, Indentation.push]
    rw [levels_parts, List.replicate_succ']

/-- Whole levels leave no columns due, so each of them is written at once. -/
theorem foldl_level (options : LayoutOptions) (depth : Nat) (writer : IndentWriter)
    (ht : writer.dueTabs = 0) (hs : writer.dueSpaces = 0) :
    (List.replicate depth IndentPart.level).foldl (IndentWriter.add options) writer
      = { writer with
          value := writer.value ++ levelText options depth
          length := writer.length + depth * options.tabWidth } := by
  induction depth generalizing writer with
  | zero => simp [levelText]
  | succ depth ih =>
    obtain ⟨value, length, dueTabs, dueSpaces⟩ := writer
    simp only at ht hs
    subst ht hs
    rw [List.replicate_succ, List.foldl_cons, ih]
    · cases hu : options.useTabs
      · simp [IndentWriter.add, IndentWriter.flush, IndentWriter.settle, IndentWriter.addSpaces,
          levelText, hu, Nat.succ_mul, Nat.add_comm, ← List.replicate_append_replicate]
        omega
      · simp [IndentWriter.add, IndentWriter.flush, IndentWriter.settle, IndentWriter.addTabs,
          levelText, hu, Nat.succ_mul, List.replicate_succ]
        omega
    · cases hu : options.useTabs <;>
        simp [IndentWriter.add, IndentWriter.flush, IndentWriter.settle, IndentWriter.addSpaces,
          IndentWriter.addTabs, hu]
    · cases hu : options.useTabs <;>
        simp [IndentWriter.add, IndentWriter.flush, IndentWriter.settle, IndentWriter.addSpaces,
          IndentWriter.addTabs, hu]

@[simp] theorem levels_value (options : LayoutOptions) (depth : Nat) :
    (levels options depth).margin.value = levelText options depth := by
  rw [levels_margin, Margin.ofParts, foldl_level options depth {} rfl rfl]
  simp [IndentWriter.addSpaces]

@[simp] theorem levels_length (options : LayoutOptions) (depth : Nat) :
    (levels options depth).margin.length = depth * options.tabWidth := by
  rw [levels_margin, Margin.ofParts, foldl_level options depth {} rfl rfl]
  simp [IndentWriter.addSpaces]

theorem isSpace_of_mem_levelText {options : LayoutOptions} {depth : Nat} {c : Char}
    (h : c ∈ levelText options depth) : isSpace c = true := by
  unfold levelText at h
  split at h
  · rw [List.eq_of_mem_replicate h]; rfl
  · rw [List.eq_of_mem_replicate h]; rfl

/-! ## Text over several lines -/

/-- A line at a level, as a strand. -/
def lineStrand (options : LayoutOptions) (depth : Nat) (hard soft : Bool) : Strand :=
  .line hard soft false (levels options depth).margin

theorem pieces_ne_nil (cs : List Char) : pieces cs ≠ [] := by
  cases cs with
  | nil => simp [pieces]
  | cons c cs =>
    simp only [pieces]
    split
    · simp
    · split <;> simp

/-- The pieces of a text are what stands between its line feeds. -/
theorem intercalate_pieces (cs : List Char) : ['\n'].intercalate (pieces cs) = cs := by
  induction cs with
  | nil => simp [pieces, List.intercalate]
  | cons c cs ih =>
    obtain ⟨first, rest, hp⟩ := List.exists_cons_of_ne_nil (pieces_ne_nil cs)
    rw [hp] at ih
    simp only [pieces, hp]
    split
    · next hc =>
      rw [beq_iff_eq] at hc
      subst hc
      simpa [List.intercalate] using ih
    · cases rest <;> simp_all [List.intercalate]

/-- Whatever is decided about its lines, a document puts this text out and nothing
else. -/
def Says (docs : List Doc) (content : List Char) : Prop :=
  ∀ (options : LayoutOptions) (depth : Nat) (wrap : Bool) (out final : List Char),
    Written wrap (strandsAll options (levels options depth) docs) out final
      ↔ final = content.reverse ++ out

theorem says_nil : Says [] [] := by
  intro options depth wrap out final
  simp [strandsAll, Written.nil_iff]

theorem says_chars (content : List Char) : Says [chars content] content := by
  intro options depth wrap out final
  simp [strandsAll, strands, chars, Written.text_iff]

theorem says_literalline : Says [literalline] ['\n'] := by
  intro options depth wrap out final
  have hm : (levels options depth).lineMargin true = {} := by
    simp [Indentation.lineMargin, levels_roots]
  simp only [strandsAll, strands, literalline, hm, List.append_nil]
  constructor
  · intro h
    cases h with
    | cons choice h => simpa [Strand.put, Strand.isHard] using Written.nil_iff.1 h
  · rintro rfl
    exact Written.cons false (by simpa [Strand.put, Strand.isHard] using Written.nil _)

theorem Says.append {xs ys : List Doc} {first rest : List Char} (hx : Says xs first)
    (hy : Says ys rest) : Says (xs ++ ys) (first ++ rest) := by
  intro options depth wrap out final
  rw [strandsAll_append, Written.append_iff]
  simp [hx options depth wrap, hy options depth wrap]

theorem says_ofPiece (piece : List Char) : Says (ofPiece piece) piece := by
  unfold ofPiece
  split
  · next h =>
    rw [List.isEmpty_iff.1 h]
    exact says_nil
  · exact says_chars piece

theorem says_pieces : ∀ rest : List (List Char),
    Says (rest.flatMap fun piece => literalline :: ofPiece piece)
      (rest.flatMap fun piece => '\n' :: piece)
  | [] => says_nil
  | piece :: rest =>
    (says_literalline.append (says_ofPiece piece)).append (says_pieces rest)

theorem intercalate_cons (separator first : List Char) (rest : List (List Char)) :
    separator.intercalate (first :: rest)
      = first ++ rest.flatMap fun piece => separator ++ piece := by
  induction rest generalizing first with
  | nil => simp [List.intercalate]
  | cons piece rest ih => simp [List.intercalate_cons_cons, ih piece]

/-- Text over several lines comes out as it is. -/
theorem says_multiline (content : List Char) : Says [multiline content] content := by
  unfold multiline
  split
  · exact says_chars content
  · exact says_chars content
  · next first rest _ hp =>
    have hcontent := intercalate_pieces content
    rw [hp, intercalate_cons] at hcontent
    have := (says_ofPiece first).append (says_pieces rest)
    rw [show first ++ rest.flatMap (fun piece => '\n' :: piece) = content from hcontent] at this
    intro options depth wrap out final
    simpa [strandsAll, strands] using this options depth wrap out final

theorem written_multiline (options : LayoutOptions) {wrap : Bool} (depth : Nat)
    (content out : List Char) :
    Written wrap ((multiline content).strands options (levels options depth)) out
      (content.reverse ++ out) := by
  have hsays := (says_multiline content options depth wrap out (content.reverse ++ out)).2 rfl
  simpa [strandsAll] using hsays

theorem isLinear_multiline (content : List Char) : (multiline content).isLinear = true := by
  have hp : ∀ piece : List Char, ∀ doc ∈ ofPiece piece, doc.isLinear = true := by
    intro piece doc hdoc
    unfold ofPiece at hdoc
    split at hdoc
    · simp at hdoc
    · rw [List.mem_singleton.1 hdoc]; rfl
  unfold multiline
  split
  · rfl
  · rfl
  · rw [isLinear, allLinear_iff]
    intro doc hdoc
    rcases List.mem_append.1 hdoc with h | h
    · exact hp _ doc h
    · obtain ⟨piece, _, h⟩ := List.mem_flatMap.1 h
      rcases List.mem_cons.1 h with rfl | h
      · rfl
      · exact hp piece doc h

/-! ## The strands of a builder -/

namespace Builder

/-- Hard lines end the piece at once. -/
theorem hardBreak_eq (count : Nat) (ending : Ending) (builder : Builder) :
    builder.hardBreak count ending =
      { builder with
        ending := ending
        pendingSpace := false
        parts := empty :: concat (builder.piece.reverse ++ List.replicate count hardline)
          :: builder.parts
        piece := [] } := by
  have hpushes : ∀ (count : Nat) (builder : Builder),
      (List.replicate count hardline).foldl (fun builder doc => builder.push doc) builder
        = { builder with piece := List.replicate count hardline ++ builder.piece } := by
    intro count
    induction count with
    | zero => exact fun _ => rfl
    | succ count ih =>
      intro builder
      rw [List.replicate_succ, List.foldl_cons, ih, Builder.push, List.append_cons,
        ← List.replicate_succ', List.replicate_succ]
  simp [hardBreak, hpushes, separate]

/-- What has been built, as strands at a level of indentation. -/
def strands (options : LayoutOptions) (depth : Nat) (builder : Builder) : List Strand :=
  strandsAll options (levels options depth) (builder.parts.reverse ++ builder.piece.reverse)

/-- Everything that has been built is linear. -/
structure Linear (builder : Builder) : Prop where
  parts : ∀ doc ∈ builder.parts, doc.isLinear = true
  piece : ∀ doc ∈ builder.piece, doc.isLinear = true

variable (options : LayoutOptions) (depth : Nat) (builder inner : Builder)

@[simp] theorem strands_push (doc : Doc) :
    (builder.push doc).strands options depth
      = builder.strands options depth ++ doc.strands options (levels options depth) := by
  simp [strands, push, strandsAll]

@[simp] theorem strands_separate (separator : Doc) :
    (builder.separate separator).strands options depth
      = builder.strands options depth ++ separator.strands options (levels options depth) := by
  simp [strands, separate, strandsAll, Doc.strands]

@[simp] theorem strands_nested : builder.nested.strands options depth = [] := rfl

theorem strands_finish (indentation : Indentation) :
    builder.finish.strands options indentation
      = strandsAll options indentation (builder.parts.reverse ++ builder.piece.reverse) := by
  unfold finish
  split
  · next hp ho => simp [hp, ho, strandsAll]
  · next hp _ => simp [hp, Doc.strands]
  · simp [Doc.strands, strandsAll]

theorem strandsAll_hardlines (count : Nat) :
    strandsAll options (levels options depth) (List.replicate count hardline)
      = List.replicate count (lineStrand options depth true false) := by
  induction count with
  | zero => rfl
  | succ count ih =>
    rw [List.replicate_succ, strandsAll, ih]
    simp [hardline, Doc.strands, strandsAll, List.replicate_succ, lineStrand,
      Indentation.lineMargin]

theorem strands_hardBreak (count : Nat) (ending : Ending) :
    (builder.hardBreak count ending).strands options depth
      = builder.strands options depth
        ++ List.replicate count (lineStrand options depth true false) := by
  rw [hardBreak_eq]
  simp [strands, strandsAll, Doc.strands, strandsAll_hardlines, empty]

/-- The strand of a space that is due before `next`. -/
def spaceStrands (next : List Char) : List Strand :=
  if builder.pendingSpace then
    if builder.noWrap == 0 && isWrappable next then [lineStrand options depth false false]
    else [.text [' ']]
  else []

theorem strands_resolveSpace (next : List Char) :
    (builder.resolveSpace next).strands options depth
      = builder.strands options depth ++ builder.spaceStrands options depth next := by
  unfold resolveSpace spaceStrands
  by_cases hp : builder.pendingSpace = true
  · by_cases hw : (builder.noWrap == 0 && isWrappable next) = true
    · simp only [hp, hw, if_true]
      rw [strands_separate]
      simp [space, Doc.strands, lineStrand, Indentation.lineMargin, strands]
    · simp only [hp, if_true, if_neg hw]
      rw [strands_push]
      simp [Doc.strands, strands]
  · simp [hp]

theorem strands_write (content : List Char) :
    (builder.write content).strands options depth
      = builder.strands options depth ++ builder.spaceStrands options depth content
        ++ (multiline content).strands options (levels options depth) := by
  show ((builder.resolveSpace content).push (multiline content)).strands options depth = _
  rw [strands_push, strands_resolveSpace]

theorem strands_closeBody :
    (builder.closeBody inner).strands options depth
      = builder.strands options depth ++ inner.strands options (depth + 1) := by
  show ((builder.resume inner).push (indent inner.finish)).strands options depth = _
  rw [strands_push, Doc.strands, strands_finish]
  rfl

/-- The strand of a space at the end of arguments. -/
def lastSpace : List Strand := if builder.pendingSpace then [.text [' ']] else []

theorem strands_closeArguments :
    (builder.closeArguments inner).strands options depth
      = builder.strands options depth ++ .text ['[']
        :: (inner.strands options (depth + 1) ++ inner.lastSpace ++ [.text [']']]) := by
  -- the arguments of a builder that has no space left to put
  have bare (inner' : Builder) :
      ((builder.resume inner').release.push
          (grouped (concat [text "[", indent inner'.finish, text "]"]))).strands options depth
        = builder.strands options depth
          ++ .text ['['] :: (inner'.strands options (depth + 1) ++ [.text [']']]) := by
    rw [strands_push]
    simp only [grouped, Doc.strands, strandsAll, strands_finish]
    simp [strands, resume, release, levels]
  unfold closeArguments lastSpace
  cases inner.pendingSpace
  · simp only [Bool.false_eq_true, if_false, List.append_nil]
    exact bare inner
  · have h := bare { inner.push (text " ") with pendingSpace := false }
    have hp : ({ inner.push (text " ") with pendingSpace := false } : Builder).strands options
        (depth + 1) = inner.strands options (depth + 1) ++ [.text [' ']] :=
      strands_push options (depth + 1) inner (text " ")
    rw [hp] at h
    exact h

/-! ## Everything built is linear -/

variable {options depth builder inner}

theorem Linear.push (hb : builder.Linear) {doc : Doc} (hd : doc.isLinear = true) :
    (builder.push doc).Linear :=
  ⟨hb.parts, by simpa [Builder.push] using ⟨hd, hb.piece⟩⟩

theorem Linear.separate (hb : builder.Linear) {separator : Doc} (hd : separator.isLinear = true) :
    (builder.separate separator).Linear := by
  refine ⟨?_, by simp [Builder.separate]⟩
  intro doc hdoc
  rcases List.mem_cons.1 hdoc with rfl | hdoc
  · exact hd
  rcases List.mem_cons.1 hdoc with rfl | hdoc
  · rw [isLinear, allLinear_iff]
    exact fun doc h => hb.piece doc (List.mem_reverse.1 h)
  · exact hb.parts doc hdoc

theorem linear_nested (builder : Builder) : builder.nested.Linear :=
  ⟨by simp [nested], by simp [nested]⟩

theorem Linear.finish (hb : builder.Linear) : builder.finish.isLinear = true := by
  have hpiece : allLinear builder.piece.reverse = true :=
    allLinear_iff.2 fun doc h => hb.piece doc (List.mem_reverse.1 h)
  unfold Builder.finish
  split
  · next ho => exact hb.piece _ (by simp [ho])
  · exact hpiece
  · rw [isLinear, allLinear_iff]
    intro doc hdoc
    rcases List.mem_cons.1 (List.mem_reverse.1 hdoc) with rfl | hdoc
    · exact hpiece
    · exact hb.parts doc hdoc

theorem Linear.hardBreak (hb : builder.Linear) (count : Nat) (ending : Ending) :
    (builder.hardBreak count ending).Linear := by
  rw [hardBreak_eq]
  refine ⟨List.forall_mem_cons.2 ⟨rfl, List.forall_mem_cons.2 ⟨?_, hb.parts⟩⟩, by simp⟩
  rw [isLinear, allLinear_iff]
  intro doc hdoc
  rcases List.mem_append.1 hdoc with hdoc | hdoc
  · exact hb.piece doc (List.mem_reverse.1 hdoc)
  · rw [List.eq_of_mem_replicate hdoc]
    rfl

theorem Linear.resolveSpace (hb : builder.Linear) (next : List Char) :
    (builder.resolveSpace next).Linear := by
  have hb' : ({ builder with pendingSpace := false } : Builder).Linear := ⟨hb.parts, hb.piece⟩
  unfold Builder.resolveSpace
  split
  · dsimp only
    split
    · exact hb'.separate rfl
    · exact hb'.push rfl
  · exact hb

theorem Linear.write (hb : builder.Linear) (content : List Char) :
    (builder.write content).Linear := by
  have h := (hb.resolveSpace content).push (isLinear_multiline content)
  exact ⟨h.parts, h.piece⟩

theorem Linear.closeBody (hb : builder.Linear) (hi : inner.Linear) :
    (builder.closeBody inner).Linear := by
  have hr : (builder.resume inner).Linear := ⟨hb.parts, hb.piece⟩
  exact hr.push hi.finish

theorem Linear.closeArguments (hb : builder.Linear) (hi : inner.Linear) :
    (builder.closeArguments inner).Linear := by
  have close (inner' : Builder) (hi' : inner'.Linear) :
      ((builder.resume inner').release.push
        (grouped (concat [text "[", indent inner'.finish, text "]"]))).Linear := by
    have hr : (builder.resume inner').release.Linear := ⟨hb.parts, hb.piece⟩
    apply hr.push
    simp [grouped, isLinear, allLinear, hi'.finish]
  unfold Builder.closeArguments
  cases inner.pendingSpace
  · have h := close inner hi
    exact ⟨h.parts, h.piece⟩
  · have hp := hi.push (show (text " ").isLinear = true from rfl)
    have h := close { inner.push (text " ") with pendingSpace := false } ⟨hp.parts, hp.piece⟩
    exact ⟨h.parts, h.piece⟩

end Builder

/-- After a comma there is no line, or one that is nothing when it is passed over, or
one that takes the place of the white space that follows. -/
theorem afterComma_cases (rest : List Node) :
    afterComma rest = none ∨ afterComma rest = some (softline, false) ∨
      (∃ more, rest = .whitespace :: more) ∧ afterComma rest = some (space, true) := by
  unfold afterComma
  split
  · exact Or.inl rfl
  · exact Or.inr (Or.inl rfl)
  · exact Or.inr (Or.inr ⟨⟨_, rfl⟩, rfl⟩)
  · exact Or.inr (Or.inl rfl)

end LatexFormatter.Doc
