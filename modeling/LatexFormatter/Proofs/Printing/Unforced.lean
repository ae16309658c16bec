import LatexFormatter.Proofs.Doc.Wide
import LatexFormatter.Proofs.Printing.Acts

/-
  The documents of trees force no choices. The only groups are argument lists; if
  nothing in them breaks a line, none of them has to be broken. The only lines
  that may be passed over stand between the pieces of a fill and in argument
  lists, so every one of them lies inside a fill or a group. Both are kept by each
  act of printing (`unforced_of_acts`).
-/

namespace LatexFormatter.Doc

/-- Nothing in the document forces a break, or at least no group has to break. -/
def isUnforced (quiet : Bool) (doc : Doc) : Bool :=
  if quiet then doc.forcesNoBreak else doc.breaksNoGroup

theorem isUnforced_concat {quiet : Bool} {docs : List Doc}
    (h : ∀ doc ∈ docs, doc.isUnforced quiet = true) : (concat docs).isUnforced quiet = true := by
  cases quiet with
  | false => exact allBreakNoGroup_iff.2 h
  | true => exact allForceNoBreak_iff.2 h

theorem isUnforced_fill {quiet : Bool} {docs : List Doc}
    (h : ∀ doc ∈ docs, doc.isUnforced quiet = true) : (fill docs).isUnforced quiet = true := by
  cases quiet with
  | false => exact allBreakNoGroup_iff.2 h
  | true => exact allForceNoBreak_iff.2 h

theorem isUnforced_indent {quiet : Bool} {doc : Doc} (h : doc.isUnforced quiet = true) :
    (indent doc).isUnforced quiet = true := by
  cases quiet with
  | false => exact h
  | true => exact h

theorem isUnforced_grouped {quiet : Bool} {doc : Doc} (h : doc.isUnforced true = true) :
    (grouped doc).isUnforced quiet = true := by
  cases quiet <;> simpa [isUnforced, forcesNoBreak, breaksNoGroup, grouped] using h

theorem isUnforced_text (quiet : Bool) (content : String) :
    (text content).isUnforced quiet = true := by
  cases quiet <;> rfl

theorem isUnforced_line (quiet hard soft literal : Bool) :
    (line hard soft literal).isUnforced quiet = true := by
  cases quiet <;> rfl

/-- Text is fine, and if it is on one line it forces nothing. -/
theorem isUnforced_multiline {quiet : Bool} {content : List Char}
    (h : quiet = true → '\n' ∉ content) : (multiline content).isUnforced quiet = true := by
  have hpiece : ∀ piece : List Char, ∀ doc ∈ ofPiece piece, doc.isUnforced false = true := by
    intro piece doc hdoc
    unfold ofPiece at hdoc
    split at hdoc
    · simp at hdoc
    · rw [List.mem_singleton.1 hdoc]
      exact isUnforced_text _ _
  unfold multiline
  split
  · exact isUnforced_text _ _
  · exact isUnforced_text _ _
  · next first rest hne hp =>
    cases quiet with
    | true =>
      -- more than one piece means a line feed between them
      exfalso
      have hcontent := intercalate_pieces content
      rw [hp, intercalate_cons] at hcontent
      cases rest with
      | nil => exact hne rfl
      | cons piece rest =>
        apply h rfl
        rw [← hcontent]
        simp
    | false =>
      apply isUnforced_concat
      intro doc hdoc
      rcases List.mem_append.1 hdoc with hdoc | hdoc
      · exact hpiece first doc hdoc
      · obtain ⟨piece, -, hdoc⟩ := List.mem_flatMap.1 hdoc
        rcases List.mem_cons.1 hdoc with rfl | hdoc
        · rfl
        · exact hpiece piece doc hdoc

theorem isSheltered_multiline (content : List Char) : (multiline content).isSheltered = true := by
  have hpiece : ∀ piece : List Char, ∀ doc ∈ ofPiece piece, doc.isSheltered = true := by
    intro piece doc hdoc
    unfold ofPiece at hdoc
    split at hdoc
    · simp at hdoc
    · rw [List.mem_singleton.1 hdoc]
      rfl
  unfold multiline
  split
  · rfl
  · rfl
  · rw [isSheltered, allSheltered_iff]
    intro doc hdoc
    rcases List.mem_append.1 hdoc with hdoc | hdoc
    · exact hpiece _ doc hdoc
    · obtain ⟨piece, -, hdoc⟩ := List.mem_flatMap.1 hdoc
      rcases List.mem_cons.1 hdoc with rfl | hdoc
      · rfl
      · exact hpiece piece doc hdoc

/-! ## Builders -/

namespace Builder

/-- What has been built is fine; outside of arguments the current piece has no line
that may be passed over. -/
structure Unforced (quiet : Bool) (builder : Builder) : Prop where
  parts : ∀ doc ∈ builder.parts, doc.isUnforced quiet = true
  piece : ∀ doc ∈ builder.piece, doc.isUnforced quiet = true
  sheltered : quiet = false → ∀ doc ∈ builder.piece, doc.isSheltered = true

variable {quiet : Bool} {builder inner : Builder}

theorem unforced_nested (quiet : Bool) (builder : Builder) : builder.nested.Unforced quiet :=
  ⟨by simp [nested], by simp [nested], by simp [nested]⟩

/-- Only what has been built matters. -/
theorem Unforced.of_eq (h : builder.Unforced quiet) (hp : inner.parts = builder.parts)
    (hc : inner.piece = builder.piece) : inner.Unforced quiet :=
  ⟨hp ▸ h.parts, hc ▸ h.piece, hc ▸ h.sheltered⟩

theorem Unforced.push (h : builder.Unforced quiet) {doc : Doc} (hd : doc.isUnforced quiet = true)
    (hs : quiet = false → doc.isSheltered = true) : (builder.push doc).Unforced quiet :=
  ⟨h.parts, List.forall_mem_cons.2 ⟨hd, h.piece⟩,
    fun hq => List.forall_mem_cons.2 ⟨hs hq, h.sheltered hq⟩⟩

theorem Unforced.separate (h : builder.Unforced quiet) {separator : Doc}
    (hd : separator.isUnforced quiet = true) : (builder.separate separator).Unforced quiet := by
  refine ⟨?_, by simp [Builder.separate], by simp [Builder.separate]⟩
  refine List.forall_mem_cons.2 ⟨hd, List.forall_mem_cons.2 ⟨?_, h.parts⟩⟩
  exact isUnforced_concat fun doc hdoc => h.piece doc (List.mem_reverse.1 hdoc)

theorem Unforced.finish (h : builder.Unforced quiet) : builder.finish.isUnforced quiet = true := by
  have hpiece : (concat builder.piece.reverse).isUnforced quiet = true :=
    isUnforced_concat fun doc hdoc => h.piece doc (List.mem_reverse.1 hdoc)
  unfold Builder.finish
  split
  · next ho => exact h.piece _ (by simp [ho])
  · exact hpiece
  · apply isUnforced_fill
    intro doc hdoc
    rcases List.mem_cons.1 (List.mem_reverse.1 hdoc) with rfl | hdoc
    · exact hpiece
    · exact h.parts doc hdoc

theorem Unforced.isSheltered_finish (h : builder.Unforced false) :
    builder.finish.isSheltered = true := by
  unfold Builder.finish
  split
  · next ho => exact h.sheltered rfl _ (by simp [ho])
  · exact allSheltered_iff.2 fun doc hdoc => h.sheltered rfl doc (List.mem_reverse.1 hdoc)
  · rfl

theorem Unforced.resolveSpace (h : builder.Unforced quiet) (next : List Char) :
    (builder.resolveSpace next).Unforced quiet := by
  have h' : ({ builder with pendingSpace := false } : Builder).Unforced quiet := h.of_eq rfl rfl
  unfold Builder.resolveSpace
  split
  · dsimp only
    split
    · exact h'.separate (isUnforced_line _ _ _ _)
    · exact h'.push (isUnforced_text _ _) fun _ => rfl
  · exact h

theorem Unforced.write (h : builder.Unforced quiet) {content : List Char}
    (hc : quiet = true → '\n' ∉ content) : (builder.write content).Unforced quiet :=
  ((h.resolveSpace content).push (isUnforced_multiline hc)
    fun _ => isSheltered_multiline content).of_eq rfl rfl

theorem Unforced.putSpace (h : builder.Unforced quiet) : builder.putSpace.Unforced quiet := by
  unfold Builder.putSpace
  split
  · exact h.of_eq rfl rfl
  · exact h

theorem Unforced.hardBreak (h : builder.Unforced false) (count : Nat) (ending : Ending) :
    (builder.hardBreak count ending).Unforced false := by
  rw [hardBreak_eq]
  refine ⟨List.forall_mem_cons.2 ⟨rfl, List.forall_mem_cons.2 ⟨isUnforced_concat ?_, h.parts⟩⟩,
    by simp, by simp⟩
  intro doc hdoc
  rcases List.mem_append.1 hdoc with hdoc | hdoc
  · exact h.piece doc (List.mem_reverse.1 hdoc)
  · rw [List.eq_of_mem_replicate hdoc]
    rfl

theorem Unforced.ensureNewline (h : builder.Unforced false) :
    builder.ensureNewline.Unforced false := by
  unfold Builder.ensureNewline
  split
  · exact h.hardBreak 1 .newline
  · exact h

theorem Unforced.leaveParagraph (h : builder.Unforced false) :
    builder.leaveParagraph.Unforced false := by
  unfold Builder.leaveParagraph
  split
  · exact h
  · exact h.hardBreak 1 .paragraph
  · exact h.hardBreak 2 .paragraph

theorem Unforced.preferParagraph (h : builder.Unforced false) :
    builder.preferParagraph.Unforced false := by
  unfold Builder.preferParagraph
  split
  · exact h.hardBreak 2 .paragraph
  · exact h

theorem Unforced.closeBody (h : builder.Unforced false) (hi : inner.Unforced false) :
    (builder.closeBody inner).Unforced false := by
  have hr : (builder.resume inner).Unforced false := h.of_eq rfl rfl
  exact hr.push (isUnforced_indent hi.finish) fun _ => hi.isSheltered_finish

theorem Unforced.openArguments (h : builder.Unforced quiet) :
    builder.openArguments.Unforced quiet :=
  (h.resolveSpace ['[']).of_eq rfl rfl

/-- Arguments in which nothing breaks a line are a group that need not break. -/
theorem Unforced.closeArguments (h : builder.Unforced quiet) (hi : inner.Unforced true) :
    (builder.closeArguments inner).Unforced quiet := by
  have close (inner' : Builder) (hi' : inner'.Unforced true) :
      ((builder.resume inner').release.push
        (grouped (concat [text "[", indent inner'.finish, text "]"]))).Unforced quiet := by
    have hr : (builder.resume inner').release.Unforced quiet := h.of_eq rfl rfl
    refine hr.push (isUnforced_grouped (isUnforced_concat ?_)) fun _ => rfl
    simpa using ⟨isUnforced_text _ _, isUnforced_indent hi'.finish, isUnforced_text _ _⟩
  unfold Builder.closeArguments
  cases inner.pendingSpace
  · exact (close inner hi).of_eq rfl rfl
  · have hpush := hi.push (isUnforced_text true " ") (by simp)
    exact (close { inner.push (text " ") with pendingSpace := false }
      (hpush.of_eq rfl rfl)).of_eq rfl rfl

end Builder

/-! ## Trees -/

/-- An act leaves what has been built fine. -/
theorem unforced_of_acts {care : Care} {builder last : Builder} {tokens : List Token}
    {entries : List Entry} (h : Acts care builder tokens entries last) (hcare : care ≠ .free)
    (hb : builder.Unforced (care == .quiet)) : last.Unforced (care == .quiet) := by
  -- what breaks a line is not done where the tree is quiet
  have hloud : ∀ {care : Care}, care ≠ .quiet → (care == .quiet) = false := by simp
  induction h with
  | nil => exact hb
  | append _ _ ih ih' => exact ih' hcare (ih hcare hb)
  | text content h | literal content _ _ _ h =>
    refine hb.write fun hquiet => ?_
    rw [eq_of_beq hquiet] at h
    exact h
  | space => exact hb.putSpace
  | paragraph h =>
    rw [hloud h] at hb ⊢
    exact hb.leaveParagraph
  | newline h =>
    rw [hloud h] at hb ⊢
    exact hb.hardBreak 1 .newline
  | ensureNewline h =>
    rw [hloud h] at hb ⊢
    exact hb.ensureNewline
  | preferParagraph h =>
    rw [hloud h] at hb ⊢
    exact hb.preferParagraph
  | @comment _ builder content sameline h =>
    rw [hloud h] at hb ⊢
    have hstart : (if sameline then builder else builder.ensureNewline).Unforced false := by
      split
      · exact hb
      · exact hb.ensureNewline
    exact (hstart.write (by simp)).hardBreak 1 .newline
  | softline h | spaceline h =>
    obtain rfl := h.resolve_left hcare
    exact hb.push (isUnforced_line _ _ _ _) (by simp)
  | held _ ih => exact (ih hcare (hb.of_eq rfl rfl)).of_eq rfl rfl
  | indented h _ _ ih =>
    have hinner := ih hcare (Builder.unforced_nested _ _)
    rw [hloud h] at hb hinner ⊢
    exact hb.closeBody hinner
  | @bracketed care _ _ _ _ hbare _ ih =>
    have hquiet : care.inArguments = .quiet := by
      cases care <;> simp_all [Care.inArguments]
    rw [hquiet] at ih
    exact hb.openArguments.closeArguments (ih (by simp) (Builder.unforced_nested _ _))

/-- A tree whose arguments break no lines has a sheltered document with no group to
break. -/
theorem ofNode_unforced {items : List Node} (hspaced : Node.Spaced false items)
    (hs : Node.SuitsAll .calm items) :
    (ofNode (.list items)).breaksNoGroup = true ∧ (ofNode (.list items)).isSheltered = true := by
  have h : (addNodes {} items).Unforced false :=
    unforced_of_acts (acts_addNodes items hs fun _ => ⟨by simp [Builder.Settled], hspaced⟩)
      (by simp) (Builder.unforced_nested false {})
  have hclosed : (if (addNodes {} items).pendingSpace then (addNodes {} items).push (text " ")
      else addNodes {} items).Unforced false := by
    split
    · exact h.push (isUnforced_text _ _) fun _ => rfl
    · exact h
  exact ⟨hclosed.finish, hclosed.isSheltered_finish⟩

end LatexFormatter.Doc
