import LatexFormatter.Proofs.Printing.Visible

/-
  Literal text is printed as it is. The plain text of a tree is cut at its
  literal stretches: verbatim environments, block comments, and verbs between
  delimiters other than blanks. Whatever a printer makes of a tree can be cut
  in the same way, with the same literal stretches; only the gaps between them
  may have other blanks and line feeds (`print_literal`).

  Both printers write from left to right and take nothing back but blanks at the
  end. A literal stretch ends in a character that is not a blank, so nothing is
  taken back from it once it is there (`Sections.Shown.trim`). So each step of a
  `Printout` keeps what has been cut.
-/

namespace LatexFormatter

/-! ## Stretches -/

/-- A part of the text of a tree: printed as it is, or with other blanks. -/
inductive Stretch where
  | plain (content : List Char)
  | literal (content : List Char)
  deriving Repr, DecidableEq

/-- The text of a stretch. -/
def Stretch.content : Stretch → List Char
  | plain content => content
  | literal content => content

/-- An entry as a stretch. -/
def Entry.stretch : Entry → Stretch
  | .literal content => .literal content
  | entry => .plain entry.content

theorem Entry.content_stretch (entry : Entry) : entry.stretch.content = entry.content := by
  cases entry <;> rfl

/-- The plain text of a node, divided into stretches: what it says, entry by entry. -/
def Node.stretches (node : Node) : List Stretch := node.entries.map Entry.stretch

/-! ## Texts cut at their literal stretches -/

/-- A text that is cut at literal stretches: each of them with the gap before it,
and the gap after the last one. -/
structure Sections where
  done : List (List Char × List Char) := []
  gap : List Char := []
  deriving Repr, DecidableEq

namespace Sections

/-- Puts a stretch behind everything else. -/
def add (sections : Sections) : Stretch → Sections
  | .plain content => { sections with gap := sections.gap ++ content }
  | .literal content => { done := sections.done ++ [(sections.gap, content)] }

/-- Stretches one after the other. -/
def ofStretches (stretches : List Stretch) : Sections := stretches.foldl add {}

/-- The text with its gaps and its literal stretches. -/
def text (sections : Sections) : List Char :=
  (sections.done.flatMap fun piece => piece.1 ++ piece.2) ++ sections.gap

/-- What matters of a text: its literal stretches as they are, and what can be seen
of its gaps. -/
def essence (sections : Sections) : Sections :=
  { done := sections.done.map fun piece => (visible piece.1, piece.2), gap := visible sections.gap }

/-- The literal stretches do not end in blanks. -/
def Solid (sections : Sections) : Prop :=
  ∀ piece ∈ sections.done, ∃ c, piece.2.getLast? = some c ∧ isSpace c = false

/-- The output, last character first, can be cut in the same way, up to blanks in
the gaps. -/
def Shown (sections : Sections) (out : List Char) : Prop :=
  ∃ shown : Sections, shown.essence = sections.essence ∧ shown.Solid ∧ out = shown.text.reverse

variable {sections : Sections} {out : List Char}

@[simp] theorem add_plain_plain (first second : List Char) :
    (sections.add (.plain first)).add (.plain second)
      = sections.add (.plain (first ++ second)) := by
  simp [add]

theorem essence_add_plain {shown : Sections} (h : shown.essence = sections.essence)
    {content content' : List Char} (hcontent : visible content' = visible content) :
    (shown.add (.plain content')).essence = (sections.add (.plain content)).essence := by
  simp only [essence, mk.injEq, add, visible_append] at h ⊢
  exact ⟨h.1, by rw [h.2, hcontent]⟩

namespace Shown

/-- Text that shows the same makes the gap longer. -/
theorem plain (content content' : List Char) (h : sections.Shown out)
    (hcontent : visible content' = visible content) :
    (sections.add (.plain content)).Shown (content'.reverse ++ out) := by
  obtain ⟨shown, hessence, hsolid, rfl⟩ := h
  refine ⟨shown.add (.plain content'), essence_add_plain hessence hcontent, hsolid, ?_⟩
  simp [add, text]

theorem literal {content : List Char} {c : Char} (h : sections.Shown out)
    (hlast : content.getLast? = some c) (hc : isSpace c = false) :
    (sections.add (.literal content)).Shown (content.reverse ++ out) := by
  obtain ⟨shown, hessence, hsolid, rfl⟩ := h
  refine ⟨shown.add (.literal content), ?_, ?_, ?_⟩
  · simp only [essence, mk.injEq] at hessence
    simp [essence, add, hessence]
  · refine List.forall_mem_append.2 ⟨hsolid, ?_⟩
    simpa using ⟨c, hlast, hc⟩
  · simp [add, text]

/-- Blanks make no difference. -/
theorem blanks (content : List Char) (h : sections.Shown out) (hcontent : visible content = []) :
    sections.Shown (content.reverse ++ out) := by
  have hplain := h.plain [] content (by rw [hcontent, visible_nil])
  simpa [add] using hplain

theorem ignore (content : List Char) (h : sections.Shown out) (hcontent : visible content = []) :
    (sections.add (.plain content)).Shown out := by
  simpa using h.plain content [] (by rw [hcontent, visible_nil])

/-- Blanks that are taken back at the end belong to the last gap. -/
theorem trim (h : sections.Shown out) : sections.Shown (out.dropWhile isSpace) := by
  obtain ⟨shown, hessence, hsolid, rfl⟩ := h
  obtain ⟨done, gap⟩ := shown
  have hdone : (done.flatMap fun piece => piece.1 ++ piece.2).reverse.dropWhile isSpace
      = (done.flatMap fun piece => piece.1 ++ piece.2).reverse := by
    cases hlast : done.getLast? with
    | none => simp [List.getLast?_eq_none_iff.1 hlast]
    | some piece =>
      obtain ⟨front, rfl⟩ := List.getLast?_eq_some_iff.1 hlast
      obtain ⟨c, hc, hspace⟩ := hsolid piece (by simp)
      obtain ⟨start, hstart⟩ := List.getLast?_eq_some_iff.1 hc
      simp [hstart, hspace]
  refine ⟨⟨done, (gap.reverse.dropWhile isSpace).reverse⟩, ?_, hsolid, ?_⟩
  · simp only [essence, mk.injEq] at hessence ⊢
    refine ⟨hessence.1, ?_⟩
    have hgap := visible_dropWhile gap.reverse
    rw [List.reverse_reverse] at hgap
    rw [hgap, hessence.2]
  · simp only [text, List.reverse_append, List.reverse_reverse]
    rw [List.dropWhile_append]
    split
    · next hempty => simp [List.isEmpty_iff.1 hempty, hdone]
    · rfl

end Shown

theorem text_foldl (stretches : List Stretch) (sections : Sections) :
    (stretches.foldl add sections).text = sections.text ++ stretches.flatMap Stretch.content := by
  induction stretches generalizing sections with
  | nil => simp
  | cons stretch rest ih =>
    rw [List.foldl_cons, ih]
    cases stretch with
    | plain content => simp [add, text, Stretch.content]
    | literal content => simp [add, text, Stretch.content]

end Sections

/-! ## Both printers -/

theorem Sections.shown_empty : ({} : Sections).Shown [] := ⟨{}, rfl, by simp [Solid], rfl⟩

/-- However a printer goes on, the output can be cut where the entries are. -/
theorem Printout.shown {entries : List Entry} {ending : Ending} {out : List Char}
    (h : Printout entries ending out) :
    (Sections.ofStretches (entries.map Entry.stretch)).Shown out := by
  unfold Sections.ofStretches
  have hmargin : ∀ {margin : List Char}, (∀ c ∈ margin, isSpace c = true) →
      visible margin.reverse = [] := fun blank =>
    visible_eq_nil fun c hc => Or.inl (blank c (List.mem_reverse.1 hc))
  induction h with
  | start => exact Sections.shown_empty
  | text content _ ih => simpa [Entry.stretch, Entry.content] using ih.plain content content rfl
  | literal content last hlast hspace _ ih =>
    simpa [Entry.stretch] using ih.literal hlast hspace
  | pass broken _ ih =>
    have hblank : visible (Entry.blank broken).content = [] := by cases broken <;> rfl
    simpa [Entry.stretch] using ih.ignore _ hblank
  | space _ ih => exact ih.blanks [' '] (by decide)
  | line next margin blank _ ih =>
    simpa using (ih.trim.blanks ['\n'] (by decide)).blanks margin.reverse (hmargin blank)
  | forget _ ih => exact ih
  | comment content sameline margin blank _ _ ih =>
    -- the line feed of the comment is among the blanks before the next line
    have hcomment := ih.plain ('%' :: content.toList ++ ['\n']) ('%' :: content.toList) (by simp)
    simpa [Entry.stretch, Entry.content] using
      (hcomment.trim.blanks ['\n'] (by decide)).blanks margin.reverse (hmargin blank)

/-- Whatever the options, either printer prints the literal stretches of a tree as
they are, and in the gaps between them it shows what the plain text of the tree
shows there. -/
theorem print_literal (node : Node) (textOptions : TextOptions) (layoutOptions : LayoutOptions) :
    (Sections.ofStretches node.stretches).text = node.displayText.toList ∧
    (∃ sections : Sections, sections.essence = (Sections.ofStretches node.stretches).essence ∧
      sections.text = (printTokens textOptions node).toList) ∧
    (∃ sections : Sections, sections.essence = (Sections.ofStretches node.stretches).essence ∧
      sections.text = (printDoc layoutOptions node).toList) := by
  have hprinted : ∀ {ending : Ending} {output : String},
      Printout node.entries ending output.toList.reverse →
      ∃ sections : Sections, sections.essence = (Sections.ofStretches node.stretches).essence ∧
        sections.text = output.toList := by
    intro ending output h
    obtain ⟨sections, hessence, -, hout⟩ := h.shown
    exact ⟨sections, hessence, (List.reverse_inj.1 hout).symm⟩
  obtain ⟨_, htokens⟩ := printout_tokens textOptions node
  obtain ⟨_, hdoc⟩ := printout_doc layoutOptions node
  refine ⟨?_, hprinted htokens, hprinted hdoc⟩
  rw [Sections.ofStretches, Sections.text_foldl, Node.stretches, List.flatMap_map,
    List.flatMap_congr fun entry _ => Entry.content_stretch entry, Node.flatMap_entries]
  simp [Sections.text, Node.displayText]

end LatexFormatter
