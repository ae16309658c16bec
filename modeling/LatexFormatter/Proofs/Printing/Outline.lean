import LatexFormatter.Proofs.Grammar.Lengths
import LatexFormatter.Proofs.Printing.Mirror

/-
  The outline of what is printed. A token stream is a list of solid texts, and
  between two of them it asks for a space, for a line or for nothing (`Lead`); what
  a layout may decide is only where a space becomes a line ending, and how far a
  line is indented. While a document is put together, everything written so far is
  laid out along the outline, and the blanks written since the last solid text
  belong to the lead that is open (`Shapes`). Each act keeps this, so it holds of
  whatever the layout prints (`laid_of_written`).
-/

namespace LatexFormatter

open Node Doc

/-! ## Leads -/

/-- What is asked for between the last solid text and the next. -/
inductive Lead where
  /-- Nothing has been printed yet. -/
  | start
  /-- The next text comes directly after the last. -/
  | tight
  | space
  /-- A line has been started. -/
  | line
  /-- Lines have been started one after the other. -/
  | lines
  /-- A blank line has been left. -/
  | paragraph
  deriving DecidableEq

namespace Lead

/-- What stands at the end of the output while the lead is open. A space is put only
when it is known what follows. -/
def Stands : Lead → List Char → Prop
  | start, blanks | tight, blanks | space, blanks => blanks = []
  | line, blanks => IsLine blanks
  | lines, blanks | paragraph, blanks => IsLines blanks

/-- The blanks that the lead may have before a solid text. -/
def Fits : Lead → List Char → List Char → Prop
  | space, solid, blanks => blanks = [' '] ∨ isWrappable solid = true ∧ IsLine blanks
  | lead, _, blanks => lead.Stands blanks

/-- How the output ends so far. -/
def ending : Lead → Ending
  | start => .start
  | tight | space => .content
  | line | lines => .newline
  | paragraph => .paragraph

/-- Something stands on the line. -/
def IsInline (lead : Lead) : Prop := lead = tight ∨ lead = space

instance (lead : Lead) : Decidable lead.IsInline :=
  inferInstanceAs (Decidable (lead = tight ∨ lead = space))

/-- Another line. -/
def newline : Lead → Lead
  | start | tight | space => line
  | line | lines | paragraph => lines

/-- What a token makes of the open lead. -/
def after (lead : Lead) : Token → Lead
  | .text _ => tight
  | .space => if lead = tight then space else lead
  | .newline => lead.newline
  | .ensureNewline => if lead.IsInline then line else lead
  | .paragraphBreak => if lead = start then start else paragraph
  | .preferParagraph => if lead.IsInline then paragraph else lead
  | .ensureParagraph => if lead.IsInline ∨ lead.ending = .newline then paragraph else lead
  | .indent | .endIndent | .noWrap | .endNoWrap => lead

@[simp] theorem newline_tight : tight.newline = line := rfl

@[simp] theorem after_text (lead : Lead) (content : String) :
    lead.after (.text content) = tight := rfl

@[simp] theorem after_chars (lead : Lead) (content : List Char) :
    lead.after (Token.chars content) = tight := rfl

@[simp] theorem after_newline (lead : Lead) : lead.after .newline = lead.newline := rfl

@[simp] theorem after_indent (lead : Lead) : lead.after .indent = lead := rfl

@[simp] theorem after_endIndent (lead : Lead) : lead.after .endIndent = lead := rfl

@[simp] theorem after_noWrap (lead : Lead) : lead.after .noWrap = lead := rfl

@[simp] theorem after_endNoWrap (lead : Lead) : lead.after .endNoWrap = lead := rfl

/-- What several tokens make of the open lead. -/
def afterAll (lead : Lead) (tokens : List Token) : Lead := tokens.foldl after lead

@[simp] theorem afterAll_nil (lead : Lead) : lead.afterAll [] = lead := rfl

@[simp] theorem afterAll_cons (lead : Lead) (token : Token) (tokens : List Token) :
    lead.afterAll (token :: tokens) = (lead.after token).afterAll tokens := rfl

@[simp] theorem afterAll_append (lead : Lead) (tokens tokens' : List Token) :
    lead.afterAll (tokens ++ tokens') = (lead.afterAll tokens).afterAll tokens' :=
  List.foldl_append

end Lead

theorem Lead.Fits.isBlank {lead : Lead} {solid blanks : List Char} (h : lead.Fits solid blanks) :
    ∀ c ∈ blanks, isBlank c = true := by
  cases lead with
  | start | tight =>
    obtain rfl : blanks = [] := h
    simp
  | space =>
    rcases h with rfl | ⟨-, h⟩
    · simp [LatexFormatter.isBlank, isSpace]
    · exact h.isBlank
  | line => exact IsLine.isBlank h
  | lines | paragraph => exact IsLines.isBlank h

/-! ## Outlines -/

/-- The solid texts of a token stream, each with the lead before it. -/
def solids (lead : Lead) : List Token → List (Lead × List Char)
  | [] => []
  | .text content :: rest => (lead, content.toList) :: solids .tight rest
  | token :: rest => solids (lead.after token) rest

theorem solids_append (lead : Lead) (tokens tokens' : List Token) :
    solids lead (tokens ++ tokens')
      = solids lead tokens ++ solids (lead.afterAll tokens) tokens' := by
  induction tokens generalizing lead with
  | nil => rfl
  | cons token tokens ih => cases token <;> simp [solids, ih, Lead.after]

@[simp] theorem solids_chars (lead : Lead) (content : List Char) (rest : List Token) :
    solids lead (Token.chars content :: rest) = (lead, content) :: solids .tight rest := by
  simp [Token.chars, solids]

/-- The text is the solid texts in order, with blanks that fit the leads before
them. -/
inductive Laid : List (Lead × List Char) → List Char → Prop
  | nil : Laid [] []
  | cons {lead : Lead} {blanks text : List Char} {pieces : List (Lead × List Char)}
      (solid : List Char) (hb : lead.Fits solid blanks) (h : Laid pieces text) :
      Laid ((lead, solid) :: pieces) (blanks ++ solid ++ text)

theorem Laid.append {first rest : List (Lead × List Char)} {text more : List Char}
    (h : Laid first text) (h' : Laid rest more) : Laid (first ++ rest) (text ++ more) := by
  induction h with
  | nil => exact h'
  | cons solid hb _ ih => simpa using Laid.cons solid hb ih

theorem Laid.of_append {first rest : List (Lead × List Char)} {text : List Char}
    (h : Laid (first ++ rest) text) :
    ∃ front back, text = front ++ back ∧ Laid first front ∧ Laid rest back := by
  induction first generalizing text with
  | nil => exact ⟨[], text, rfl, .nil, h⟩
  | cons piece first ih =>
    cases h with
    | @cons lead blanks text _ solid hb h =>
      obtain ⟨front, back, rfl, hfront, hback⟩ := ih h
      exact ⟨blanks ++ solid ++ front, back, by simp, .cons solid hb hfront, hback⟩

theorem Laid.snoc {pieces : List (Lead × List Char)} {lead : Lead} {text blanks solid : List Char}
    (h : Laid pieces text) (hb : lead.Fits solid blanks) :
    Laid (pieces ++ [(lead, solid)]) (text ++ (blanks ++ solid)) := by
  simpa using h.append (Laid.cons solid hb .nil)

/-! ## What a builder has laid out -/

/-- The text does not end in a space. -/
def Trimmed (text : List Char) : Prop := text.reverse.dropWhile isSpace = text.reverse

theorem trimmed_append {text solid : List Char} (h : EndsFirm solid) : Trimmed (text ++ solid) := by
  obtain ⟨c, hlast, hc⟩ := h
  obtain ⟨front, rfl⟩ := List.getLast?_eq_some_iff.1 hlast
  simp [Trimmed, hc]

namespace Doc.Builder

/-- What a builder keeps in mind while a lead is open, and the blanks that stand
there already. -/
def Awaits (builder : Builder) (lead : Lead) (blanks : List Char) : Prop :=
  builder.ending = lead.ending ∧ (builder.pendingSpace = true ↔ lead = .space) ∧
    lead.Stands blanks

/-- The output, last character first, is laid out along the pieces, and then come
the blanks of an open lead. -/
def Shapes (builder : Builder) (pieces : List (Lead × List Char)) (lead : Lead)
    (out : List Char) : Prop :=
  ∃ body blanks, out = (body ++ blanks).reverse ∧ Laid pieces body ∧ Trimmed body ∧
    builder.Awaits lead blanks

/-- Whatever is decided about the lines, everything that has been built is laid
out. -/
def Lays (options : LayoutOptions) (depth : Nat) (start : List Char) (builder : Builder)
    (pieces : List (Lead × List Char)) (lead : Lead) : Prop :=
  ∀ out, Written true (builder.strands options depth) start out → builder.Shapes pieces lead out

variable {options : LayoutOptions} {depth : Nat} {start : List Char} {builder inner : Builder}
  {pieces : List (Lead × List Char)} {lead : Lead}

theorem isLine_levelText (options : LayoutOptions) (depth : Nat) :
    IsLine ('\n' :: levelText options depth) :=
  ⟨_, rfl, fun _ => isSpace_of_mem_levelText⟩

/-- Before a solid text the open lead gets the space that it still lacks. -/
theorem Awaits.resolve {body blanks next mid : List Char} (h : builder.Awaits lead blanks)
    (hf : Trimmed body)
    (hw : Written true (builder.spaceStrands options depth next) (body ++ blanks).reverse mid) :
    ∃ blanks', mid = (body ++ blanks').reverse ∧ lead.Fits next blanks' := by
  obtain ⟨-, hdue, hstands⟩ := h
  by_cases hspace : lead = .space
  · subst hspace
    obtain rfl : blanks = [] := hstands
    rw [List.append_nil, spaceStrands, hdue.2 rfl, if_pos rfl] at hw
    split at hw
    · next hwrap =>
      -- the line is a space, or a line ending with the indentation after it
      cases hw with
      | cons choice hw =>
        rw [Written.nil_iff.1 hw]
        cases choice with
        | false => exact ⟨[' '], by simp [lineStrand, Strand.put, Strand.isHard], Or.inl rfl⟩
        | true =>
          rw [Bool.and_eq_true] at hwrap
          refine ⟨'\n' :: levelText options depth, ?_, Or.inr ⟨hwrap.2, isLine_levelText ..⟩⟩
          rw [Trimmed] at hf
          simp [lineStrand, Strand.put, Strand.isHard, hf]
    · exact ⟨[' '], by simp [Written.text_iff.1 hw], Or.inl rfl⟩
  · rw [spaceStrands, if_neg (mt hdue.1 hspace)] at hw
    refine ⟨blanks, Written.nil_iff.1 hw, ?_⟩
    cases lead <;> first | exact hstands | exact absurd rfl hspace

/-- A solid text closes the lead before it. -/
theorem Lays.write (h : builder.Lays options depth start pieces lead) (content : List Char)
    (hfirm : EndsFirm content) :
    (builder.write content).Lays options depth start (pieces ++ [(lead, content)]) .tight := by
  intro out hw
  rw [strands_write] at hw
  obtain ⟨mid, hw, hcontent⟩ := Written.append_iff.1 hw
  obtain ⟨before, hbuilder, hspace⟩ := Written.append_iff.1 hw
  obtain ⟨body, blanks, rfl, hlaid, htrimmed, hawaits⟩ := h before hbuilder
  obtain ⟨blanks', rfl, hfits⟩ := hawaits.resolve htrimmed hspace
  have hout := (says_multiline content options depth true _ out).1
    (by simpa [strandsAll] using hcontent)
  refine ⟨body ++ (blanks' ++ content), [], by simp [hout], hlaid.snoc hfits, ?_, rfl, ?_, rfl⟩
  · rw [← List.append_assoc]
    exact trimmed_append hfirm
  · rw [pendingSpace_write]
    simp

/-- A space is remembered until the next solid text. -/
theorem Lays.putSpace (h : builder.Lays options depth start pieces lead) :
    builder.putSpace.Lays options depth start pieces (lead.after .space) := by
  intro out hw
  have hstrands : builder.putSpace.strands options depth = builder.strands options depth := by
    unfold Builder.putSpace
    split <;> rfl
  rw [hstrands] at hw
  obtain ⟨body, blanks, rfl, hlaid, htrimmed, hending, hdue, hstands⟩ := h out hw
  refine ⟨body, blanks, rfl, hlaid, htrimmed, ?_⟩
  cases lead with
  | tight | space =>
    have hput : builder.putSpace = { builder with pendingSpace := true } := by
      simp [Builder.putSpace, hending, Lead.ending]
    rw [hput]
    exact ⟨hending, by simp [Lead.after], hstands⟩
  | start | line | lines | paragraph =>
    have hput : builder.putSpace = builder := by
      simp [Builder.putSpace, hending, Lead.ending]
    rw [hput]
    exact ⟨hending, hdue, hstands⟩

/-- What hard lines make of the output. -/
theorem eq_of_hardLines {count : Nat} {out final : List Char}
    (h : Written true (List.replicate (count + 1) (lineStrand options depth true false)) out
      final) :
    final = (levelText options depth).reverse ++ List.replicate (count + 1) '\n'
      ++ out.dropWhile LatexFormatter.isSpace := by
  refine Written.unique_of_hard ?_ h (written_hardLines depth count out)
  intro strand hmem
  rw [List.eq_of_mem_replicate hmem]
  rfl

/-- The blanks at the end of a line, removed. -/
def trimmedBlanks (blanks : List Char) : List Char :=
  (blanks.reverse.dropWhile LatexFormatter.isSpace).reverse

/-- Removing the blanks at the end of the line leaves all solid text. -/
theorem dropWhile_trimmed {body : List Char} (h : Trimmed body) (blanks : List Char) :
    (body ++ blanks).reverse.dropWhile LatexFormatter.isSpace
      = (body ++ trimmedBlanks blanks).reverse := by
  rw [Trimmed] at h
  rw [trimmedBlanks, List.reverse_append, List.dropWhile_append]
  split
  · next hempty =>
    rw [List.isEmpty_iff] at hempty
    simp [h, hempty]
  · simp

theorem trimmedBlanks_cons (more : List Char) :
    trimmedBlanks ('\n' :: more) = '\n' :: trimmedBlanks more := by
  rw [trimmedBlanks, List.reverse_cons, List.dropWhile_append]
  split
  · next hempty =>
    rw [List.isEmpty_iff] at hempty
    simp [trimmedBlanks, hempty, isSpace]
  · simp [trimmedBlanks]

theorem isBlank_of_mem_trimmedBlanks {blanks : List Char} (h : ∀ c ∈ blanks, isBlank c = true) :
    ∀ c ∈ trimmedBlanks blanks, isBlank c = true := by
  intro c hc
  have hmem := (List.dropWhile_sublist _).mem (List.mem_reverse.1 hc)
  exact h c (List.mem_reverse.1 hmem)

/-- Line endings after those that stand there make several. -/
theorem isLines_of_more {more : List Char} (h : ∀ c ∈ more, isBlank c = true) (count : Nat) :
    IsLines (trimmedBlanks ('\n' :: more) ++ List.replicate (count + 1) '\n'
      ++ levelText options depth) := by
  refine ⟨trimmedBlanks more ++ List.replicate (count + 1) '\n' ++ levelText options depth,
    by rw [trimmedBlanks_cons]; simp, ?_, by simp⟩
  intro c hc
  simp only [List.mem_append] at hc
  rcases hc with (hc | hc) | hc
  · exact isBlank_of_mem_trimmedBlanks h c hc
  · obtain rfl := List.eq_of_mem_replicate hc
    rfl
  · simp [LatexFormatter.isBlank, isSpace_of_mem_levelText hc]

/-- Breaking the line leaves a lead with the line endings that stand there and the
new ones. -/
theorem Lays.hardBreak (h : builder.Lays options depth start pieces lead) (count : Nat)
    (next : Lead) (hnext : next ≠ .space)
    (hstands : ∀ blanks, lead.Stands blanks → next.Stands (trimmedBlanks blanks
      ++ List.replicate (count + 1) '\n' ++ levelText options depth)) :
    (builder.hardBreak (count + 1) next.ending).Lays options depth start pieces next := by
  intro out hw
  rw [strands_hardBreak] at hw
  obtain ⟨mid, hbuilder, hline⟩ := Written.append_iff.1 hw
  obtain ⟨body, blanks, rfl, hlaid, htrimmed, -, -, hold⟩ := h mid hbuilder
  have hout := eq_of_hardLines hline
  rw [dropWhile_trimmed htrimmed] at hout
  refine ⟨body, _, ?_, hlaid, htrimmed, ?_, ?_, hstands blanks hold⟩
  · simp [hout]
  · rw [hardBreak_eq]
  · rw [pendingSpace_hardBreak]
    simp [hnext]

theorem Lays.newline (h : builder.Lays options depth start pieces lead) :
    builder.newline.Lays options depth start pieces lead.newline := by
  cases lead with
  | start | tight | space =>
    exact h.hardBreak 0 .line (by decide) fun blanks hb => by
      obtain rfl : blanks = [] := hb
      exact isLine_levelText options depth
  | line =>
    exact h.hardBreak 0 .lines (by decide) fun blanks hb => by
      obtain ⟨margin, rfl, hmargin⟩ := hb
      exact isLines_of_more (fun c hc => by simp [LatexFormatter.isBlank, hmargin c hc]) 0
  | lines | paragraph =>
    exact h.hardBreak 0 .lines (by decide) fun blanks hb => by
      obtain ⟨more, rfl, hmore, -⟩ := hb
      exact isLines_of_more hmore 0

/-- What a builder ends in does not depend on the output, but an output is needed to
see it. -/
theorem Lays.ending {out : List Char} (h : builder.Lays options depth start pieces lead)
    (hw : Written true (builder.strands options depth) start out) :
    builder.ending = lead.ending := by
  obtain ⟨-, -, -, -, -, hending, -⟩ := h out hw
  exact hending

/-- What is laid out by one of two builders according to how the output ends. -/
theorem lays_of_ending (h : builder.Lays options depth start pieces lead) {other : Builder}
    {next : Lead}
    (hw : ∀ out, Written true (other.strands options depth) start out →
      ∃ mid, Written true (builder.strands options depth) start mid)
    (hother : builder.ending = lead.ending → other.Lays options depth start pieces next) :
    other.Lays options depth start pieces next := by
  intro out hout
  obtain ⟨mid, hmid⟩ := hw out hout
  exact hother (h.ending hmid) out hout

theorem exists_written_of_hardBreak {count : Nat} {ending : Ending} {out : List Char}
    (hw : Written true ((builder.hardBreak count ending).strands options depth) start out) :
    ∃ mid, Written true (builder.strands options depth) start mid := by
  rw [strands_hardBreak] at hw
  exact (Written.append_iff.1 hw).imp fun _ hmid => hmid.1

theorem Lays.ensureNewline (h : builder.Lays options depth start pieces lead) :
    builder.ensureNewline.Lays options depth start pieces (lead.after .ensureNewline) := by
  refine lays_of_ending h (fun out hw => ?_) fun hending => ?_
  · unfold Builder.ensureNewline at hw
    split at hw
    · exact exists_written_of_hardBreak hw
    · exact ⟨out, hw⟩
  · cases lead with
    | tight | space => simpa [Builder.ensureNewline, hending, Lead.ending, Lead.after,
        Lead.IsInline, Lead.newline] using h.newline
    | start | line | lines | paragraph => simpa [Builder.ensureNewline, hending, Lead.ending,
        Lead.after, Lead.IsInline] using h

/-- A blank line, if something stands on the line. -/
theorem Lays.blankLine (h : builder.Lays options depth start pieces lead)
    (hlead : lead.IsInline) :
    (builder.hardBreak 2 .paragraph).Lays options depth start pieces .paragraph :=
  h.hardBreak 1 .paragraph (by decide) fun blanks hb => by
    obtain rfl : blanks = [] := by rcases hlead with rfl | rfl <;> exact hb
    refine ⟨'\n' :: levelText options depth, by simp [trimmedBlanks], ?_, by simp⟩
    exact (isLine_levelText options depth).isBlank

theorem Lays.preferParagraph (h : builder.Lays options depth start pieces lead) :
    builder.preferParagraph.Lays options depth start pieces (lead.after .preferParagraph) := by
  refine lays_of_ending h (fun out hw => ?_) fun hending => ?_
  · unfold Builder.preferParagraph at hw
    split at hw
    · exact exists_written_of_hardBreak hw
    · exact ⟨out, hw⟩
  · cases lead with
    | tight => simpa [Builder.preferParagraph, hending, Lead.ending, Lead.after,
        Lead.IsInline] using h.blankLine (Or.inl rfl)
    | space => simpa [Builder.preferParagraph, hending, Lead.ending, Lead.after,
        Lead.IsInline] using h.blankLine (Or.inr rfl)
    | start | line | lines | paragraph => simpa [Builder.preferParagraph, hending, Lead.ending,
        Lead.after, Lead.IsInline] using h

theorem Lays.leaveParagraph (h : builder.Lays options depth start pieces lead) :
    builder.leaveParagraph.Lays options depth start pieces (lead.after .paragraphBreak) := by
  refine lays_of_ending h (fun out hw => ?_) fun hending => ?_
  · unfold Builder.leaveParagraph at hw
    split at hw
    · exact ⟨out, hw⟩
    · exact exists_written_of_hardBreak hw
    · exact exists_written_of_hardBreak hw
  · have hmany : ∀ count blanks, IsLines blanks → IsLines (trimmedBlanks blanks
        ++ List.replicate (count + 1) '\n' ++ levelText options depth) := by
      rintro count blanks ⟨more, rfl, hmore, -⟩
      exact isLines_of_more hmore count
    cases lead with
    | start => simpa [Builder.leaveParagraph, hending, Lead.ending, Lead.after] using h
    | tight => simpa [Builder.leaveParagraph, hending, Lead.ending, Lead.after]
        using h.blankLine (Or.inl rfl)
    | space => simpa [Builder.leaveParagraph, hending, Lead.ending, Lead.after]
        using h.blankLine (Or.inr rfl)
    | line =>
      have hbreak := h.hardBreak 0 .paragraph (by decide) fun blanks hb => by
        obtain ⟨margin, rfl, hmargin⟩ := hb
        exact isLines_of_more (fun c hc => by simp [LatexFormatter.isBlank, hmargin c hc]) 0
      simpa [Builder.leaveParagraph, hending, Lead.ending, Lead.after] using hbreak
    | lines =>
      have hbreak := h.hardBreak 0 .paragraph (by decide) (hmany 0)
      simpa [Builder.leaveParagraph, hending, Lead.ending, Lead.after] using hbreak
    | paragraph =>
      have hbreak := h.hardBreak 1 .paragraph (by decide) (hmany 1)
      simpa [Builder.leaveParagraph, hending, Lead.ending, Lead.after] using hbreak

theorem Lays.hold (h : builder.Lays options depth start pieces lead) :
    builder.hold.Lays options depth start pieces lead := h

theorem Lays.release (h : builder.Lays options depth start pieces lead) :
    builder.release.Lays options depth start pieces lead := h

/-- A nested builder goes on where the output stands. -/
theorem lays_nested {out : List Char} (h : builder.Shapes pieces lead out) :
    builder.nested.Lays options depth out pieces lead := by
  intro final hw
  rw [Written.nil_iff.1 hw]
  exact h

theorem Lays.closeBody {pieces' : List (Lead × List Char)} {lead' : Lead}
    (h : builder.Lays options depth start pieces lead)
    (hi : ∀ out, builder.Shapes pieces lead out →
      inner.Lays options (depth + 1) out pieces' lead') :
    (builder.closeBody inner).Lays options depth start pieces' lead' := by
  intro out hw
  rw [strands_closeBody] at hw
  obtain ⟨mid, hbuilder, hinner⟩ := Written.append_iff.1 hw
  exact hi mid (h mid hbuilder) out hinner

end Doc.Builder

/-! ## The document of a tree -/

open Doc Doc.Builder

/-- An act lays out the solid texts of its tokens. -/
theorem lays_of_acts (options : LayoutOptions) {care : Care} {builder last : Builder}
    {tokens : List Token} {entries : List Entry} (h : Acts care builder tokens entries last)
    (hcare : care = .bare) {depth : Nat} {start : List Char}
    {pieces : List (Lead × List Char)} {lead : Lead}
    (hlays : builder.Lays options depth start pieces lead) :
    last.Lays options depth start (pieces ++ solids lead tokens) (lead.afterAll tokens) := by
  induction h generalizing depth start pieces lead with
  | nil => simpa [solids] using hlays
  | append _ _ ih ih' =>
    rw [solids_append, ← List.append_assoc, Lead.afterAll_append]
    exact ih' hcare (ih hcare hlays)
  | text content h | literal content _ _ _ h =>
    subst hcare
    simpa [solids] using hlays.write content h
  | space => simpa [solids] using hlays.putSpace
  | paragraph => simpa [solids] using hlays.leaveParagraph
  | newline => simpa [solids] using hlays.newline
  | ensureNewline => simpa [solids] using hlays.ensureNewline
  | preferParagraph => simpa [solids] using hlays.preferParagraph
  | comment content sameline _ hfirm =>
    cases sameline with
    | true => simpa [solids] using (hlays.write _ (hfirm hcare)).newline
    | false => simpa [solids] using (hlays.ensureNewline.write _ (hfirm hcare)).newline
  | softline h | spaceline h =>
    subst hcare
    simp at h
  | held _ ih =>
    have hinner := (ih hcare hlays.hold).release
    simpa [solids, solids_append] using hinner
  | indented _ _ _ ih =>
    have hbody := hlays.closeBody fun out hout => ih hcare (lays_nested hout)
    simpa [solids, solids_append] using hbody
  | bracketed hne => exact absurd hcare hne

/-- However its lines are broken, a document without arguments is laid out along the
outline of its tokens, and ends with the blanks of its last lead. -/
theorem laid_of_written (options : LayoutOptions) {items : List Node}
    (hs : SuitsAll .bare items) (hspaced : Spaced false items) {out : List Char}
    (h : Written true ((ofNode (.list items)).strands options {}) [] out) :
    ∃ body blanks, out.reverse = body ++ blanks ∧ Laid (solids .start (Token.ofNodes items)) body ∧
      (Lead.start.afterAll (Token.ofNodes items)).Fits [] blanks := by
  have hstart : ({} : Builder).Lays options 0 [] [] .start := by
    intro out hw
    rw [Written.nil_iff.1 hw]
    exact ⟨[], [], rfl, .nil, rfl, rfl, by simp, rfl⟩
  have hacts : Acts .bare {} (Token.ofNodes items) (entriesAll items) (addNodes {} items) :=
    acts_addNodes items hs fun _ => ⟨by simp [Builder.Settled], hspaced⟩
  have hall := lays_of_acts options hacts rfl hstart
  -- the last space is put as it would be before a text that starts no line
  have hstrands : (ofNode (.list items)).strands options {}
      = (addNodes {} items).strands options 0
        ++ (addNodes {} items).spaceStrands options 0 [] := by
    rw [ofNode, addNode, strands_finish]
    unfold spaceStrands
    by_cases hpending : (addNodes {} items).pendingSpace = true
    · simp only [hpending, if_true, isWrappable, Bool.and_false, Bool.false_eq_true, if_false]
      exact strands_push options 0 (addNodes {} items) (Doc.text " ")
    · simp only [hpending, Bool.false_eq_true, if_false, List.append_nil]
      rfl
  rw [hstrands] at h
  obtain ⟨mid, hbuilder, hspace⟩ := Written.append_iff.1 h
  obtain ⟨body, blanks, rfl, hlaid, htrimmed, hawaits⟩ := hall mid hbuilder
  obtain ⟨blanks', rfl, hfits⟩ := hawaits.resolve htrimmed hspace
  exact ⟨body, blanks', by simp, by simpa using hlaid, hfits⟩

end LatexFormatter
