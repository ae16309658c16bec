import Mathlib.Data.List.Induction
import LatexFormatter.Proofs.Doc.Builder
import LatexFormatter.Proofs.Doc.ForcedBreaks
import LatexFormatter.Proofs.Printing.Acts

/-
  The shape of the documents of trees. Filling a line goes by turns: a piece, the
  separator behind it, the next piece; so it rests on every fill being put together
  that way. `Filled` says so of the pieces and separators that a builder has
  finished, and `Built` of a whole document: lines that break in any case stand only
  at the end of a piece, with nothing for a separator.

  Whatever a builder is given, it builds such documents (`addNode_sound`), and it
  allows wrapping again as often as it has forbidden it. Where each nested document
  of one that was built can stand is listed in `Inside`; what the fills, the hard
  lines and the kinds of documents in it are is read off there
  (`ofNode_wellShaped`).
-/

namespace LatexFormatter.Doc

/-! ## Fills and their pieces -/

/-- A piece of a fill and the separator behind it: a space, or nothing if the piece
ends in hard lines. -/
inductive Segment (Sound : Doc → Prop) : Doc → Doc → Prop where
  | spaced {piece : List Doc} (hpiece : ∀ doc ∈ piece, Sound doc) :
      Segment Sound (concat piece) space
  | broken {piece : List Doc} {count : Nat} (hpiece : ∀ doc ∈ piece, Sound doc)
      (hcount : count = 1 ∨ count = 2) :
      Segment Sound (concat (piece ++ List.replicate count hardline)) empty

/-- Pieces and separators in turn. -/
inductive Filled (Sound : Doc → Prop) : List Doc → Prop where
  | nil : Filled Sound []
  | snoc {parts : List Doc} {content separator : Doc} (h : Filled Sound parts)
      (hlast : Segment Sound content separator) : Filled Sound (parts ++ [content, separator])

/-- Documents as they are put together for a tree. A hard line that is not literal
stands nowhere but at the end of a piece. -/
inductive Built : Doc → Prop where
  | text (content : String) : Built (text content)
  | line {hard soft literal : Bool} (h : hard = true → literal = true) :
      Built (line hard soft literal)
  | breakParent : Built breakParent
  | concat {parts : List Doc} (h : ∀ part ∈ parts, Built part) : Built (concat parts)
  | group {contents : Doc} {broken : Bool} (h : Built contents) : Built (group contents broken none)
  | indent {contents : Doc} (h : Built contents) : Built (indent contents)
  | fill {parts piece : List Doc} (hne : parts ≠ []) (h : Filled Built parts)
      (hpiece : ∀ doc ∈ piece, Built doc) : Built (fill (parts ++ [Doc.concat piece]))

theorem not_built_hardline : ¬ Built hardline := by
  intro h
  cases h with
  | concat h =>
    cases h (line true false false) (by simp) with
    | line h => simp at h

section

variable {Sound : Doc → Prop} {parts : List Doc}

/-- There are as many separators as pieces. -/
theorem Filled.length_even (h : Filled Sound parts) : parts.length % 2 = 0 := by
  induction h with
  | nil => rfl
  | snoc _ _ ih =>
    rw [List.length_append, List.length_cons, List.length_singleton]
    omega

/-- At each even place there is a piece, and its separator behind it. -/
theorem Filled.segment (h : Filled Sound parts) {place : Nat} (hplace : 2 * place < parts.length) :
    ∃ content separator, parts[2 * place]? = some content ∧
      parts[2 * place + 1]? = some separator ∧ Segment Sound content separator := by
  induction h with
  | nil => simp at hplace
  | @snoc parts content separator h hlast ih =>
    have heven := h.length_even
    by_cases hbefore : 2 * place < parts.length
    · rw [List.getElem?_append_left hbefore, List.getElem?_append_left (by omega)]
      exact ih hbefore
    · have hlength : 2 * place = parts.length := by
        rw [List.length_append, List.length_cons, List.length_singleton] at hplace
        omega
      refine ⟨content, separator, ?_, ?_, hlast⟩
      · simp [hlength]
      · simp [hlength]

end

/-! ## Where documents are found -/

/-- The piece at an even place of a fill ends in so many hard lines, and its separator
is nothing. -/
structure EndsHard (parts : List Doc) (place : Nat) (before : List Doc) (count : Nat) : Prop where
  built : ∀ doc ∈ before, Built doc
  oneOrTwo : count = 1 ∨ count = 2
  piece : parts[2 * place]? = some (concat (before ++ List.replicate count hardline))
  separator : parts[2 * place + 1]? = some empty

/-- A part of a fill is a document that was built or ends in hard lines. -/
theorem built_or_endsHard {parts piece : List Doc} (h : Filled Built parts)
    (hpiece : ∀ doc ∈ piece, Built doc) {index : Nat} {part : Doc}
    (hpart : (parts ++ [concat piece])[index]? = some part) :
    Built part ∨ ∃ place before count, index = 2 * place ∧
      EndsHard (parts ++ [concat piece]) place before count ∧
      part = concat (before ++ List.replicate count hardline) := by
  have heven := h.length_even
  by_cases hlast : parts.length ≤ index
  · -- the last piece, which has no separator
    rw [List.getElem?_append_right hlast] at hpart
    have hmem := List.mem_of_getElem? hpart
    rw [List.mem_singleton] at hmem
    exact Or.inl (hmem ▸ .concat hpiece)
  · obtain ⟨place, hplace⟩ : ∃ place, index = 2 * place ∨ index = 2 * place + 1 :=
      ⟨index / 2, by omega⟩
    obtain ⟨content, separator, hcontent, hseparator, hsegment⟩ :=
      h.segment (show 2 * place < parts.length by omega)
    have hleft : ∀ {spot : Nat}, spot < parts.length →
        (parts ++ [concat piece])[spot]? = parts[spot]? :=
      fun hspot => List.getElem?_append_left hspot
    replace hcontent := (hleft (by omega)).trans hcontent
    replace hseparator := (hleft (by omega)).trans hseparator
    rcases hplace with rfl | rfl
    · obtain rfl : content = part := Option.some.inj (hcontent.symm.trans hpart)
      cases hsegment with
      | spaced hsound => exact Or.inl (.concat hsound)
      | @broken before count hsound hcount =>
        exact Or.inr ⟨place, before, count, rfl, ⟨hsound, hcount, hcontent, hseparator⟩, rfl⟩
    · obtain rfl : separator = part := Option.some.inj (hseparator.symm.trans hpart)
      cases hsegment with
      | spaced => exact Or.inl (.line (by simp))
      | broken => exact Or.inl (.concat (by simp))

/-- Where in a document a nested one is found, and what it can be: it was built, or it
is a piece that ends in hard lines, one of these, or the line in it. -/
inductive Inside (doc : Doc) : List Nat → Doc → Prop where
  | built {path : List Nat} {part : Doc} (h : Built part) : Inside doc path part
  | piece {outer : List Nat} {parts before : List Doc} {place count : Nat}
      (hfill : nested? outer doc = some (fill parts)) (h : EndsHard parts place before count) :
      Inside doc (outer ++ [2 * place]) (concat (before ++ List.replicate count hardline))
  | hardline {outer : List Nat} {parts before : List Doc} {place count spot : Nat}
      (hfill : nested? outer doc = some (fill parts)) (h : EndsHard parts place before count)
      (hspot : spot < count) :
      Inside doc (outer ++ [2 * place, before.length + spot]) hardline
  | line {outer : List Nat} {parts before : List Doc} {place count spot : Nat}
      (hfill : nested? outer doc = some (fill parts)) (h : EndsHard parts place before count)
      (hspot : spot < count) :
      Inside doc (outer ++ [2 * place, before.length + spot, 0]) (line true false false)

theorem nested?_append (path more : List Nat) (doc : Doc) :
    nested? (path ++ more) doc = (nested? path doc).bind (nested? more) := by
  induction path generalizing doc with
  | nil => rfl
  | cons index path ih =>
    simp only [List.cons_append, nested?, Option.bind_assoc]
    exact Option.bind_congr fun part _ => ih part

/-- One level further down. -/
theorem inside_inner {doc whole part : Doc} {path : List Nat} {index : Nat}
    (h : Inside doc path whole) (hwhole : nested? path doc = some whole)
    (hpart : (inner whole)[index]? = some part) : Inside doc (path ++ [index]) part := by
  cases h with
  | built h =>
    have hmem := List.mem_of_getElem? hpart
    cases h with
    | text | line | breakParent => simp [inner] at hmem
    | concat h => exact .built (h part hmem)
    | group h | indent h =>
      rw [inner, List.mem_singleton] at hmem
      exact .built (hmem ▸ h)
    | fill hne h hpiece =>
      rcases built_or_endsHard h hpiece hpart with hbuilt | ⟨place, before, count, rfl, hends, rfl⟩
      · exact .built hbuilt
      · exact .piece hwhole hends
  | @piece outer parts before place count hfill h =>
    rw [inner] at hpart
    by_cases hbefore : index < before.length
    · rw [List.getElem?_append_left hbefore] at hpart
      exact .built (h.built part (List.mem_of_getElem? hpart))
    · obtain ⟨spot, rfl⟩ : ∃ spot, index = before.length + spot := ⟨index - before.length, by omega⟩
      rw [List.getElem?_append_right (by omega), Nat.add_sub_cancel_left,
        List.getElem?_replicate] at hpart
      split at hpart
      · next hspot =>
        cases hpart
        simpa using Inside.hardline hfill h hspot
      · cases hpart
  | @hardline outer parts before place count spot hfill h hspot =>
    cases index with
    | zero =>
      cases hpart
      simpa using Inside.line hfill h hspot
    | succ index =>
      -- behind the line there is only what makes it break the groups around it
      have hpart' : [breakParent][index]? = some part := hpart
      have hmem := List.mem_of_getElem? hpart'
      rw [List.mem_singleton] at hmem
      exact hmem ▸ .built .breakParent
  | line => simp [inner] at hpart

/-- Everything nested in a document that was built has its place. -/
theorem Built.inside {doc : Doc} (h : Built doc) {path : List Nat} {part : Doc}
    (hpart : nested? path doc = some part) : Inside doc path part := by
  induction path using List.reverseRecOn generalizing part with
  | nil =>
    cases hpart
    exact .built h
  | append_singleton path index ih =>
    rw [nested?_append] at hpart
    obtain ⟨whole, hwhole, hindex⟩ := Option.bind_eq_some_iff.1 hpart
    refine inside_inner (ih hwhole) hwhole ?_
    simpa [nested?] using hindex

/-! ## Builders -/

theorem built_multiline (content : List Char) : Built (multiline content) := by
  have hpiece : ∀ piece : List Char, ∀ doc ∈ ofPiece piece, Built doc := by
    intro piece doc hdoc
    unfold ofPiece at hdoc
    split at hdoc
    · simp at hdoc
    · rw [List.mem_singleton.1 hdoc]
      exact .text _
  have hliteral : Built literalline := by
    refine .concat (List.forall_mem_cons.2 ⟨.line fun _ => rfl, ?_⟩)
    simpa using Built.breakParent
  unfold multiline
  split
  · exact .text _
  · exact .text _
  · refine .concat fun doc hdoc => ?_
    rcases List.mem_append.1 hdoc with hdoc | hdoc
    · exact hpiece _ doc hdoc
    · obtain ⟨piece, -, hdoc⟩ := List.mem_flatMap.1 hdoc
      rcases List.mem_cons.1 hdoc with rfl | hdoc
      · exact hliteral
      · exact hpiece piece doc hdoc

namespace Builder

/-- What has been built is well shaped, and so many constructs that forbid wrapping are
open. -/
structure Sound (level : Nat) (builder : Builder) : Prop where
  parts : Filled Built builder.parts.reverse
  piece : ∀ doc ∈ builder.piece, Built doc
  noWrap : builder.noWrap = level

variable {level : Nat} {builder inner : Builder}

/-- Only what has been built matters, and the count. -/
theorem Sound.of_eq (h : builder.Sound level) (hparts : inner.parts = builder.parts)
    (hpiece : inner.piece = builder.piece) (hnoWrap : inner.noWrap = builder.noWrap) :
    inner.Sound level :=
  ⟨hparts ▸ h.parts, hpiece ▸ h.piece, hnoWrap.trans h.noWrap⟩

theorem Sound.nested (h : builder.Sound level) : builder.nested.Sound level :=
  ⟨.nil, by simp [Builder.nested], h.noWrap⟩

theorem Sound.hold (h : builder.Sound level) : builder.hold.Sound (level + 1) :=
  ⟨h.parts, h.piece, congrArg (· + 1) h.noWrap⟩

theorem Sound.release (h : builder.Sound (level + 1)) : builder.release.Sound level :=
  ⟨h.parts, h.piece, congrArg (· - 1) h.noWrap⟩

/-- What a nested builder has built is left aside. -/
theorem Sound.resume (h : builder.Sound level) {level' : Nat} (hinner : inner.Sound level') :
    (builder.resume inner).Sound level' :=
  ⟨h.parts, h.piece, hinner.noWrap⟩

theorem Sound.push (h : builder.Sound level) {doc : Doc} (hdoc : Built doc) :
    (builder.push doc).Sound level :=
  ⟨h.parts, List.forall_mem_cons.2 ⟨hdoc, h.piece⟩, h.noWrap⟩

theorem Sound.built_piece (h : builder.Sound level) : ∀ doc ∈ builder.piece.reverse, Built doc :=
  fun doc hdoc => h.piece doc (List.mem_reverse.1 hdoc)

theorem Sound.separate_space (h : builder.Sound level) : (builder.separate space).Sound level := by
  refine ⟨?_, by simp [Builder.separate], h.noWrap⟩
  simpa [Builder.separate] using h.parts.snoc (.spaced h.built_piece)

theorem Sound.hardBreak (h : builder.Sound level) {count : Nat} (hcount : count = 1 ∨ count = 2)
    (ending : Ending) : (builder.hardBreak count ending).Sound level := by
  rw [hardBreak_eq]
  refine ⟨?_, by simp, h.noWrap⟩
  simpa using h.parts.snoc (.broken h.built_piece hcount)

theorem Sound.newline (h : builder.Sound level) : builder.newline.Sound level :=
  h.hardBreak (Or.inl rfl) .newline

theorem Sound.ensureNewline (h : builder.Sound level) : builder.ensureNewline.Sound level := by
  unfold Builder.ensureNewline
  split
  · exact h.newline
  · exact h

theorem Sound.leaveParagraph (h : builder.Sound level) : builder.leaveParagraph.Sound level := by
  unfold Builder.leaveParagraph
  split
  · exact h
  · exact h.hardBreak (Or.inl rfl) .paragraph
  · exact h.hardBreak (Or.inr rfl) .paragraph

theorem Sound.preferParagraph (h : builder.Sound level) : builder.preferParagraph.Sound level := by
  unfold Builder.preferParagraph
  split
  · exact h.hardBreak (Or.inr rfl) .paragraph
  · exact h

theorem Sound.putSpace (h : builder.Sound level) : builder.putSpace.Sound level := by
  unfold Builder.putSpace
  split
  · exact h.of_eq rfl rfl rfl
  · exact h

theorem Sound.resolveSpace (h : builder.Sound level) (next : List Char) :
    (builder.resolveSpace next).Sound level := by
  have hdue : ({ builder with pendingSpace := false } : Builder).Sound level := h.of_eq rfl rfl rfl
  unfold Builder.resolveSpace
  split
  · dsimp only
    split
    · exact hdue.separate_space
    · exact hdue.push (.text _)
  · exact h

theorem Sound.write (h : builder.Sound level) (content : List Char) :
    (builder.write content).Sound level :=
  ((h.resolveSpace content).push (built_multiline content)).of_eq rfl rfl rfl

theorem Sound.finish (h : builder.Sound level) : Built builder.finish := by
  unfold Builder.finish
  split
  · next honly => exact h.piece _ (by simp [honly])
  · exact .concat h.built_piece
  · next hparts _ =>
    rw [List.reverse_cons]
    exact .fill (by simpa using hparts) h.parts h.built_piece

theorem Sound.closeBody (h : builder.Sound level) (hinner : inner.Sound level) :
    (builder.closeBody inner).Sound level :=
  (h.resume hinner).push (.indent hinner.finish)

theorem Sound.openArguments (h : builder.Sound level) : builder.openArguments.Sound (level + 1) :=
  (h.resolveSpace ['[']).hold.of_eq rfl rfl rfl

/-- The brackets of arguments are closed where they were opened. -/
theorem Sound.closeArguments (h : builder.Sound (level + 1)) (hinner : inner.Sound (level + 1)) :
    (builder.closeArguments inner).Sound level := by
  have hclose : ∀ inner : Builder, inner.Sound (level + 1) →
      ((builder.resume inner).release.push
        (grouped (concat [text "[", indent inner.finish, text "]"]))).Sound level := by
    intro inner hinner
    refine (h.resume hinner).release.push (.group (.concat ?_))
    simpa using ⟨Built.text _, Built.indent hinner.finish, Built.text _⟩
  unfold Builder.closeArguments
  cases inner.pendingSpace
  · exact (hclose inner hinner).of_eq rfl rfl rfl
  · have hpush := hinner.push (.text " ")
    exact (hclose { inner.push (text " ") with pendingSpace := false }
      (hpush.of_eq rfl rfl rfl)).of_eq rfl rfl rfl

end Builder

/-! ## Trees -/

/-- Every act keeps the shape, and leaves open what was. -/
theorem sound_of_acts {care : Care} {builder last : Builder} {tokens : List Token}
    {entries : List Entry} (h : Acts care builder tokens entries last) {level : Nat}
    (hs : builder.Sound level) : last.Sound level := by
  -- a line after a comma goes into the piece, it does not end it
  have hline : ∀ soft : Bool, Built (line false soft false) := fun soft => .line (by simp)
  induction h generalizing level with
  | nil => exact hs
  | append _ _ ih ih' => exact ih' (ih hs)
  | text content | literal content => exact hs.write content
  | space => exact hs.putSpace
  | paragraph => exact hs.leaveParagraph
  | newline => exact hs.newline
  | ensureNewline => exact hs.ensureNewline
  | preferParagraph => exact hs.preferParagraph
  | comment content sameline =>
    cases sameline
    · exact (hs.ensureNewline.write _).newline
    · exact (hs.write _).newline
  | softline => exact hs.push (hline true)
  | spaceline => exact hs.push (hline false)
  | held _ ih => exact (ih hs.hold).release
  | indented _ _ _ ih => exact hs.closeBody (ih hs.nested)
  | bracketed _ _ ih => exact hs.openArguments.closeArguments (ih hs.openArguments.nested)

/-- What is built for a tree is well shaped, and no construct that forbids wrapping is
left open. -/
theorem addNode_sound (node : Node) : (addNode {} node).Sound 0 :=
  sound_of_acts (acts_addNode_free node {}) ⟨.nil, by simp, rfl⟩

theorem built_ofNode (node : Node) : Built (ofNode node) := by
  have h := addNode_sound node
  unfold ofNode
  dsimp only
  split
  · exact (h.push (.text " ")).finish
  · exact h.finish

/-- Whether a document is of a kind that trees need: there are no further states, no
indentation but by levels, and nothing depends on breaks, is kept back, removed or
marked. -/
def isCommon : Doc → Bool
  | text _ | concat _ | fill _ | indent _ | line _ _ _ | breakParent => true
  | group _ _ states => states.isNone
  | align _ _ | ifBreak _ _ | lineSuffix _ | lineSuffixBoundary | trim | cursor => false

theorem isCommon_of_built {doc : Doc} (h : Built doc) : doc.isCommon = true := by
  cases h <;> rfl

theorem isCommon_of_inside {doc part : Doc} {path : List Nat} (h : Inside doc path part) :
    part.isCommon = true := by
  cases h with
  | built h => exact isCommon_of_built h
  | piece | hardline | line => rfl

/-- A fill has pieces at the even places, the last one included, and separators at the
odd ones. -/
theorem fill_of_built {parts : List Doc} (h : Built (fill parts)) :
    parts.length % 2 = 1 ∧ 3 ≤ parts.length ∧
      ∀ place part, parts[2 * place + 1]? = some part → part = space ∨ part = empty := by
  cases h with
  | @fill parts piece hne h hpiece =>
    have heven := h.length_even
    have hpos := List.length_pos_iff.2 hne
    rw [List.length_append, List.length_singleton]
    refine ⟨by omega, by omega, fun place part hpart => ?_⟩
    have hplace : 2 * place + 1 < parts.length := by
      obtain ⟨hlt, -⟩ := List.getElem?_eq_some_iff.1 hpart
      rw [List.length_append, List.length_singleton] at hlt
      omega
    obtain ⟨content, separator, -, hseparator, hsegment⟩ :=
      h.segment (show 2 * place < parts.length by omega)
    rw [List.getElem?_append_left hplace, hseparator] at hpart
    cases hpart
    cases hsegment with
    | spaced => exact Or.inl rfl
    | broken => exact Or.inr rfl

/-- **The documents of trees are well shaped.** Every fill, at any depth, has an odd
number of parts, three or more, and at the odd places spaces or nothing. A hard
line that is not literal is found in one place only: in one of the one or two that
end a piece of a fill, behind which the separator is nothing. There are no
documents of the kinds that trees do not need, and in the end wrapping is forbidden
no more. -/
theorem ofNode_wellShaped (node : Node) :
    (∀ path parts, nested? path (ofNode node) = some (fill parts) →
      parts.length % 2 = 1 ∧ 3 ≤ parts.length ∧
      ∀ place part, parts[2 * place + 1]? = some part → part = space ∨ part = empty) ∧
    (∀ path soft, nested? path (ofNode node) = some (line true soft false) →
      ∃ outer parts place before count spot,
        path = outer ++ [2 * place, before.length + spot, 0] ∧
        nested? outer (ofNode node) = some (fill parts) ∧
        parts[2 * place]? = some (concat (before ++ List.replicate count hardline)) ∧
        parts[2 * place + 1]? = some empty ∧
        hardline ∉ before ∧ (count = 1 ∨ count = 2) ∧ spot < count) ∧
    (∀ path part, nested? path (ofNode node) = some part → part.isCommon = true) ∧
    (addNode {} node).noWrap = 0 := by
  have hbuilt := built_ofNode node
  refine ⟨fun path parts hfill => ?_, fun path soft hline => ?_,
    fun path part hpart => isCommon_of_inside (hbuilt.inside hpart),
    (addNode_sound node).noWrap⟩
  · cases hbuilt.inside hfill with
    | built h => exact fill_of_built h
  · cases hbuilt.inside hline with
    | built h =>
      cases h with
      | line h => simp at h
    | @line outer parts before place count spot hfill h hspot =>
      exact ⟨outer, parts, place, before, count, spot, rfl, hfill, h.piece, h.separator,
        fun hmem => not_built_hardline (h.built hardline hmem), h.oneOrTwo, hspot⟩

-- two words and a new paragraph: the second piece ends in two hard lines
example : ofNode (.list [.string "a", .whitespace, .string "b", .parbreak, .string "c"])
    = fill [concat [text "a"], space, concat [text "b", hardline, hardline], empty,
      concat [text "c"]] := by rfl

end LatexFormatter.Doc
