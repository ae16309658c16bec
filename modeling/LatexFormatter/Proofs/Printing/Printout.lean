import LatexFormatter.Format
import LatexFormatter.Proofs.Printing.Acts

/-
  What the printers do, step by step. `Printout` lists the few things that either
  printer does while it writes the entries of a tree: it puts text on the line, puts
  a space, starts a line, and ends the line of a comment at once. It also follows
  what the printers know of the line they are on (`Ending`).

  Both printers, for every tree and all options, do nothing else
  (`printout_tokens`, `printout_doc`). What each of these steps keeps is therefore
  true of all that is printed.
-/

namespace LatexFormatter

/-! ## What a printer does -/

/-- The output, last character first, that a printer has written of some entries,
and what it knows of the line it is on. -/
inductive Printout : List Entry → Ending → List Char → Prop where
  | start : Printout [] .start []
  /-- Text is put on the line. -/
  | text {entries : List Entry} {ending : Ending} {out : List Char} (content : List Char)
      (h : Printout entries ending out) :
      Printout (entries ++ [.text content]) .content (content.reverse ++ out)
  /-- So is literal text, at the end of which no blank can be taken back. -/
  | literal {entries : List Entry} {ending : Ending} {out : List Char} (content : List Char)
      (last : Char) (hlast : content.getLast? = some last) (hspace : isSpace last = false)
      (h : Printout entries ending out) :
      Printout (entries ++ [.literal content]) .content (content.reverse ++ out)
  /-- Blanks of the tree need not be written. -/
  | pass {entries : List Entry} {ending : Ending} {out : List Char} (broken : Bool)
      (h : Printout entries ending out) : Printout (entries ++ [.blank broken]) ending out
  | space {entries : List Entry} {ending : Ending} {out : List Char}
      (h : Printout entries ending out) : Printout entries ending (' ' :: out)
  /-- A line is ended, without the blanks at its end, and another one started. -/
  | line {entries : List Entry} {ending : Ending} {out : List Char} (next : Ending)
      (margin : List Char) (blank : ∀ c ∈ margin, isSpace c = true)
      (h : Printout entries ending out) :
      Printout entries next (margin ++ '\n' :: out.dropWhile isSpace)
  /-- What is known of the line may be forgotten. -/
  | forget {entries : List Entry} {ending : Ending} {out : List Char}
      (h : Printout entries ending out) : Printout entries .content out
  /-- A comment is put on the line, which is ended at once. A comment that is to
  have a line of its own is not put behind content. -/
  | comment {entries : List Entry} {ending : Ending} {out : List Char} (content : String)
      (sameline : Bool) (margin : List Char) (blank : ∀ c ∈ margin, isSpace c = true)
      (own : sameline = false → ending ≠ .content) (h : Printout entries ending out) :
      Printout (entries ++ [.comment content sameline]) .newline
        (margin ++ '\n' :: (('%' :: content.toList).reverse ++ out).dropWhile isSpace)

/-- Several lines are started one after the other. -/
theorem Printout.lines {entries : List Entry} {ending : Ending} {out : List Char}
    (h : Printout entries ending out) (count : Nat) (next : Ending) (margin : List Char)
    (blank : ∀ c ∈ margin, isSpace c = true) :
    Printout entries next
      (margin ++ List.replicate (count + 1) '\n' ++ out.dropWhile isSpace) := by
  induction count generalizing margin with
  | zero => simpa using h.line next margin blank
  | succ count ih =>
    have hlast := (ih [] (by simp)).line next margin blank
    have htop : (List.replicate (count + 1) '\n' ++ out.dropWhile isSpace).dropWhile isSpace
        = List.replicate (count + 1) '\n' ++ out.dropWhile isSpace := by
      rw [List.replicate_succ, List.cons_append, List.dropWhile_cons_of_neg (by decide)]
    rw [List.nil_append, htop] at hlast
    simpa [List.replicate_succ] using hlast

/-! ## The token stream -/

namespace Token

/-- Whether a token brings text with it. -/
def isText : Token → Bool
  | text _ => true
  | _ => false

/-- The text of a token; a directive has none. -/
def content : Token → List Char
  | text content => content.toList
  | _ => []

@[simp] theorem content_chars (cs : List Char) : (chars cs).content = cs := by
  simp [chars, content]

/-- The page shows what a printer has written of some entries. -/
def Page.Shows (page : Page) (entries : List Entry) : Prop :=
  Printout entries page.ending page.out

variable {entries : List Entry} {page : Page}

theorem printout_breakLines (options : TextOptions) (count : Nat) (next : Ending)
    (h : page.Shows entries) : Printout entries next (page.breakLines options (count + 1)).out := by
  refine h.lines count next _ ?_
  intro c hc
  rw [List.eq_of_mem_replicate hc]
  rfl

theorem printout_leaveParagraph (options : TextOptions) (next : Ending)
    (hending : page.ending ≠ .start) (h : page.Shows entries) :
    Printout entries next (page.leaveParagraph options).out := by
  unfold Page.leaveParagraph
  split
  · next hstart => exact absurd hstart hending
  · exact printout_breakLines options 0 next h
  · exact printout_breakLines options 1 next h

/-- Directives put spaces and start lines. -/
theorem Page.Shows.step (h : page.Shows entries) (options : TextOptions) (token : Token)
    (htoken : token.isText = false) : (page.step options token).Shows entries := by
  cases token with
  | text content => cases htoken
  | space =>
    simp only [Page.step]
    split
    · exact h.space.forget
    · exact h
  | newline => exact printout_breakLines options 0 .newline h
  | ensureNewline =>
    simp only [Page.step]
    split
    · exact printout_breakLines options 0 .newline h
    · exact h
  | preferParagraph =>
    simp only [Page.step]
    split
    · exact printout_breakLines options 1 .paragraph h
    · exact h
  | paragraphBreak =>
    simp only [Page.step]
    split
    · exact h
    · next hstart => exact printout_leaveParagraph options .paragraph (by simpa using hstart) h
  | ensureParagraph =>
    simp only [Page.step]
    split
    · next hbreak =>
      refine printout_leaveParagraph options .paragraph ?_ h
      intro hstart
      simp [hstart] at hbreak
    · exact h
  | indent | endIndent | noWrap | endNoWrap => exact h

/-- Text goes on the line, or on a new one. -/
theorem Page.Shows.write (h : page.Shows entries) (options : TextOptions) (content : List Char) :
    ∃ out, Printout entries page.ending out ∧ (page.write options content).ending = .content ∧
      (page.write options content).out = content.reverse ++ out := by
  unfold Page.write
  split
  · exact ⟨_, printout_breakLines options 0 page.ending h, rfl, rfl⟩
  · exact ⟨_, h, rfl, rfl⟩

theorem Page.Shows.text (h : page.Shows entries) (options : TextOptions) (content : List Char) :
    (page.step options (chars content)).Shows (entries ++ [.text content]) := by
  obtain ⟨out, hout, hending, hwrite⟩ := h.write options content
  simp only [Page.Shows, chars, Page.step, String.toList_ofList, hending, hwrite]
  exact hout.text content

theorem Page.Shows.literal (h : page.Shows entries) (options : TextOptions) {content : List Char}
    {last : Char} (hlast : content.getLast? = some last) (hspace : isSpace last = false) :
    (page.step options (chars content)).Shows (entries ++ [.literal content]) := by
  obtain ⟨out, hout, hending, hwrite⟩ := h.write options content
  simp only [Page.Shows, chars, Page.step, String.toList_ofList, hending, hwrite]
  exact hout.literal content last hlast hspace

/-- A comment ends its line. -/
theorem Page.Shows.comment (h : page.Shows entries) (options : TextOptions) (content : String)
    (sameline : Bool) :
    (((if sameline then [] else [ensureNewline]) ++ [chars ('%' :: content.toList), newline]).foldl
      (Page.step options) page).Shows (entries ++ [.comment content sameline]) := by
  -- the page on which the comment is put
  obtain ⟨start, hstart, hown, hfold⟩ : ∃ start : Page,
      start.Shows entries ∧ (sameline = false → start.ending ≠ .content) ∧
      ((if sameline then [] else [ensureNewline]) ++ [chars ('%' :: content.toList), newline]).foldl
          (Page.step options) page
        = (start.write options ('%' :: content.toList)).step options newline := by
    cases sameline with
    | true => exact ⟨page, h, by simp, by simp [chars, Page.step]⟩
    | false =>
      refine ⟨page.step options ensureNewline, h.step options _ rfl, ?_, by simp [chars, Page.step]⟩
      intro _
      simp only [Page.step]
      split
      · exact Ending.noConfusion
      · next hending => simpa using hending
  obtain ⟨out, hout, -, hwrite⟩ := hstart.write options ('%' :: content.toList)
  have htabs : ∀ c ∈ List.replicate (start.write options ('%' :: content.toList)).indent '\t',
      isSpace c = true := by
    intro c hc
    rw [List.eq_of_mem_replicate hc]
    rfl
  have hline := hout.comment content sameline _ htabs hown
  rw [hfold]
  simp only [Page.Shows, Page.step, Page.breakLines, hwrite]
  rwa [List.replicate_one, List.append_assoc, List.singleton_append]

/-- The tokens of any acts print what has been said by them. -/
theorem shows_of_acts (options : TextOptions) {care : Care} {builder last : Doc.Builder}
    {tokens : List Token} {said : List Entry} (h : Acts care builder tokens said last)
    {page : Page} {entries : List Entry} (hshows : page.Shows entries) :
    (tokens.foldl (Page.step options) page).Shows (entries ++ said) := by
  induction h generalizing page entries with
  | nil | softline => simpa using hshows
  | append _ _ ih ih' =>
    rw [List.foldl_append, ← List.append_assoc]
    exact ih' (ih hshows)
  | text content => exact hshows.text options content
  | literal content last hlast hspace => exact hshows.literal options hlast hspace
  | space | spaceline => exact (hshows.step options space rfl).pass false
  | paragraph => exact (hshows.step options paragraphBreak rfl).pass true
  | newline | ensureNewline | preferParagraph => simpa using hshows.step options _ rfl
  | comment content sameline => exact hshows.comment options content sameline
  | held _ ih =>
    rw [List.foldl_append, List.foldl_cons]
    exact (ih (hshows.step options noWrap rfl)).step options endNoWrap rfl
  | indented _ _ _ ih =>
    rw [List.foldl_append, List.foldl_cons]
    exact (ih (hshows.step options indent rfl)).step options endIndent rfl
  | bracketed _ _ ih =>
    have hitems := ih (hshows.text options ['['])
    simpa [chars] using hitems.text options [']']

end Token

/-! ## The layout engine -/

namespace Doc

/-- However these strands are written, from one ending of the line to the other,
they print these entries. -/
def Delivers (strands : List Strand) (first : Ending) (entries : List Entry) (ending : Ending) :
    Prop :=
  ∀ (before : List Entry) (out final : List Char), Written true strands out final →
    Printout before first out → Printout (before ++ entries) ending final

theorem delivers_nil (ending : Ending) : Delivers [] ending [] ending := by
  intro before out final hw hprint
  rw [Written.nil_iff.1 hw, List.append_nil]
  exact hprint

theorem Delivers.append {strands strands' : List Strand} {first middle ending : Ending}
    {entries entries' : List Entry} (h : Delivers strands first entries middle)
    (h' : Delivers strands' middle entries' ending) :
    Delivers (strands ++ strands') first (entries ++ entries') ending := by
  intro before out final hw hprint
  obtain ⟨mid, hfirst, hrest⟩ := Written.append_iff.1 hw
  rw [← List.append_assoc]
  exact h' _ mid final hrest (h before out mid hfirst hprint)

theorem Delivers.append_nil {strands strands' : List Strand} {first middle ending : Ending}
    {entries : List Entry} (h : Delivers strands first entries middle)
    (h' : Delivers strands' middle [] ending) :
    Delivers (strands ++ strands') first entries ending := by
  simpa using h.append h'

theorem delivers_text (content : List Char) (first : Ending) :
    Delivers [.text content] first [.text content] .content := by
  intro before out final hw hprint
  rw [Written.text_iff.1 hw]
  exact hprint.text content

theorem delivers_space (ending : Ending) : Delivers [.text [' ']] ending [] ending := by
  intro before out final hw hprint
  rw [Written.text_iff.1 hw, List.append_nil]
  exact hprint.space

/-- A line is started where it is taken. -/
theorem printout_line {entries : List Entry} {ending : Ending} {out : List Char}
    (options : LayoutOptions) (depth : Nat) (hard soft : Bool) (next : Ending)
    (h : Printout entries ending out) :
    Printout entries next ((lineStrand options depth hard soft).put true out) := by
  have hmargin : ∀ c ∈ (levelText options depth).reverse, isSpace c = true := by
    intro c hc
    exact isSpace_of_mem_levelText (List.mem_reverse.1 hc)
  simpa [lineStrand, Strand.put] using h.line next _ hmargin

/-- A line that may be passed over leaves what is known of the line. -/
theorem delivers_line (options : LayoutOptions) (depth : Nat) (soft : Bool) (ending : Ending) :
    Delivers [lineStrand options depth false soft] ending [] ending := by
  intro before out final hw hprint
  rw [List.append_nil]
  cases hw with
  | cons choice hw =>
    rw [Written.nil_iff.1 hw]
    cases choice with
    | true => exact printout_line options depth false soft ending hprint
    | false =>
      cases soft with
      | false => exact hprint.space
      | true => exact hprint

theorem delivers_hardLine (options : LayoutOptions) (depth : Nat) (first ending : Ending) :
    Delivers [lineStrand options depth true false] first [] ending := by
  intro before out final hw hprint
  rw [List.append_nil]
  cases hw with
  | cons choice hw =>
    rw [Written.nil_iff.1 hw]
    exact printout_line options depth true false ending hprint

theorem delivers_hardLines (options : LayoutOptions) (depth count : Nat) (first ending : Ending) :
    Delivers (List.replicate (count + 1) (lineStrand options depth true false)) first []
      ending := by
  induction count with
  | zero => exact delivers_hardLine options depth first ending
  | succ count ih =>
    rw [List.replicate_succ']
    exact ih.append_nil (delivers_hardLine options depth ending ending)

namespace Builder

/-- However the lines are chosen, what has been built prints these entries. -/
def Printing (options : LayoutOptions) (depth : Nat) (first : Ending) (builder : Builder)
    (entries : List Entry) : Prop :=
  Delivers (builder.strands options depth) first entries builder.ending

variable {options : LayoutOptions} {depth : Nat} {first : Ending} {builder inner : Builder}
  {entries more : List Entry}

theorem printing_nested (options : LayoutOptions) (depth : Nat) (builder : Builder) :
    builder.nested.Printing options depth builder.ending [] :=
  delivers_nil builder.ending

theorem delivers_spaceStrands (options : LayoutOptions) (depth : Nat) (builder : Builder)
    (next : List Char) (ending : Ending) :
    Delivers (builder.spaceStrands options depth next) ending [] ending := by
  unfold spaceStrands
  split
  · split
    · exact delivers_line options depth false ending
    · exact delivers_space ending
  · exact delivers_nil ending

namespace Printing

/-- A text is put behind the space that is due. -/
theorem before_text (h : builder.Printing options depth first entries) {content : List Char}
    {before : List Entry} {out final : List Char}
    (hw : Written true ((builder.write content).strands options depth) out final)
    (hprint : Printout before first out) :
    ∃ mid, Printout (before ++ entries) builder.ending mid ∧ final = content.reverse ++ mid := by
  rw [strands_write] at hw
  obtain ⟨mid, hfirst, htext⟩ := Written.append_iff.1 hw
  refine ⟨mid, Delivers.append_nil h (delivers_spaceStrands options depth builder content _) before
    out mid hfirst hprint, ?_⟩
  exact (says_multiline content options depth true mid final).1 (by simpa [strandsAll] using htext)

theorem write (h : builder.Printing options depth first entries) (content : List Char) :
    (builder.write content).Printing options depth first (entries ++ [.text content]) := by
  intro before out final hw hprint
  obtain ⟨mid, hmid, rfl⟩ := h.before_text hw hprint
  rw [← List.append_assoc]
  exact hmid.text content

theorem literal (h : builder.Printing options depth first entries) {content : List Char}
    {last : Char} (hlast : content.getLast? = some last) (hspace : isSpace last = false) :
    (builder.write content).Printing options depth first (entries ++ [.literal content]) := by
  intro before out final hw hprint
  obtain ⟨mid, hmid, rfl⟩ := h.before_text hw hprint
  rw [← List.append_assoc]
  exact hmid.literal content last hlast hspace

theorem hold (h : builder.Printing options depth first entries) :
    builder.hold.Printing options depth first entries := h

theorem release (h : builder.Printing options depth first entries) :
    builder.release.Printing options depth first entries := h

theorem putSpace (h : builder.Printing options depth first entries) :
    builder.putSpace.Printing options depth first entries := by
  unfold Builder.putSpace
  split
  · exact h
  · exact h

theorem hardBreak (h : builder.Printing options depth first entries) (count : Nat)
    (ending : Ending) :
    (builder.hardBreak (count + 1) ending).Printing options depth first entries := by
  rw [Printing, strands_hardBreak]
  exact Delivers.append_nil h (delivers_hardLines options depth count _ ending)

theorem newline (h : builder.Printing options depth first entries) :
    builder.newline.Printing options depth first entries :=
  h.hardBreak 0 .newline

theorem ensureNewline (h : builder.Printing options depth first entries) :
    builder.ensureNewline.Printing options depth first entries := by
  unfold Builder.ensureNewline
  split
  · exact h.newline
  · exact h

theorem leaveParagraph (h : builder.Printing options depth first entries) :
    builder.leaveParagraph.Printing options depth first entries := by
  unfold Builder.leaveParagraph
  split
  · exact h
  · exact h.hardBreak 0 .paragraph
  · exact h.hardBreak 1 .paragraph

theorem preferParagraph (h : builder.Printing options depth first entries) :
    builder.preferParagraph.Printing options depth first entries := by
  unfold Builder.preferParagraph
  split
  · exact h.hardBreak 1 .paragraph
  · exact h

/-- The line is taken for one with content before the bracket is there. -/
theorem openArguments (h : builder.Printing options depth first entries) :
    builder.openArguments.Printing options depth first entries := by
  have hspace : Delivers ((builder.resolveSpace ['[']).strands options depth) first entries
      builder.ending := by
    rw [strands_resolveSpace]
    exact Delivers.append_nil h (delivers_spaceStrands options depth builder ['['] _)
  intro before out final hw hprint
  exact (hspace before out final hw hprint).forget

theorem closeArguments (h : builder.Printing options depth first entries)
    (hinner : inner.Printing options (depth + 1) .content more) :
    (builder.closeArguments inner).Printing options depth first
      (entries ++ (.text ['['] :: more ++ [.text [']']])) := by
  have hlast : Delivers inner.lastSpace inner.ending [] inner.ending := by
    unfold lastSpace
    split
    · exact delivers_space _
    · exact delivers_nil _
  have hitems := (Delivers.append_nil hinner hlast).append (delivers_text [']'] _)
  rw [Printing, strands_closeArguments]
  exact Delivers.append h ((delivers_text ['['] _).append hitems)

theorem closeBody (h : builder.Printing options depth first entries)
    (hinner : inner.Printing options (depth + 1) builder.ending more) :
    (builder.closeBody inner).Printing options depth first (entries ++ more) := by
  rw [Printing, strands_closeBody]
  exact Delivers.append h hinner

/-- A line that may be taken after a comma prints nothing. -/
theorem pushLine (h : builder.Printing options depth first entries) (soft : Bool) :
    (builder.push (line false soft false)).Printing options depth first entries := by
  rw [Printing, strands_push]
  exact Delivers.append_nil h (delivers_line options depth soft _)

/-- Blanks of the tree may be passed over. -/
theorem pass (h : builder.Printing options depth first entries) (broken : Bool) :
    builder.Printing options depth first (entries ++ [.blank broken]) := by
  intro before out final hw hprint
  rw [← List.append_assoc]
  exact (h before out final hw hprint).pass broken

/-- A comment ends its line. -/
theorem comment (h : builder.Printing options depth first entries) (content : String)
    (sameline : Bool) (hown : sameline = false → builder.ending ≠ .content) :
    (builder.write ('%' :: content.toList)).newline.Printing options depth first
      (entries ++ [.comment content sameline]) := by
  intro before out final hw hprint
  rw [Builder.newline, strands_hardBreak] at hw
  obtain ⟨written, hwrite, hline⟩ := Written.append_iff.1 hw
  obtain ⟨mid, hmid, rfl⟩ := h.before_text hwrite hprint
  -- the line after a comment is a hard one, and hard lines are always taken
  have hfinal : final = (levelText options depth).reverse
      ++ '\n' :: (('%' :: content.toList).reverse ++ mid).dropWhile isSpace := by
    cases hline with
    | cons choice hline =>
      rw [Written.nil_iff.1 hline]
      simp [lineStrand, Strand.put, Strand.isHard]
  have hmargin : ∀ c ∈ (levelText options depth).reverse, isSpace c = true := by
    intro c hc
    exact isSpace_of_mem_levelText (List.mem_reverse.1 hc)
  rw [hfinal, ← List.append_assoc]
  exact hmid.comment content sameline _ hmargin hown

end Printing

theorem ending_ensureNewline (builder : Builder) : builder.ensureNewline.ending ≠ .content := by
  unfold Builder.ensureNewline
  split
  · exact Ending.noConfusion
  · next hending => simpa using hending

/-- What any acts add to a builder prints what has been said by them. -/
theorem printing_of_acts (options : LayoutOptions) {care : Care} {builder last : Builder}
    {tokens : List Token} {said : List Entry} (h : Acts care builder tokens said last)
    {depth : Nat} {first : Ending} {entries : List Entry}
    (hprinting : builder.Printing options depth first entries) :
    last.Printing options depth first (entries ++ said) := by
  induction h generalizing depth first entries with
  | nil => simpa using hprinting
  | append _ _ ih ih' =>
    rw [← List.append_assoc]
    exact ih' (ih hprinting)
  | text content => exact hprinting.write content
  | literal content last hlast hspace => exact hprinting.literal hlast hspace
  | space => exact hprinting.putSpace.pass false
  | paragraph => exact hprinting.leaveParagraph.pass true
  | newline => simpa using hprinting.newline
  | ensureNewline => simpa using hprinting.ensureNewline
  | preferParagraph => simpa using hprinting.preferParagraph
  | @comment _ builder content sameline =>
    cases sameline with
    | true => exact hprinting.comment content true (by simp)
    | false =>
      exact hprinting.ensureNewline.comment content false fun _ => builder.ending_ensureNewline
  | softline =>
    rw [List.append_nil]
    exact hprinting.pushLine true
  | spaceline => exact (hprinting.pushLine false).pass false
  | held _ ih => exact (ih hprinting.hold).release
  | @indented _ builder _ _ _ _ _ _ ih =>
    exact hprinting.closeBody (ih (printing_nested options (depth + 1) builder))
  | @bracketed _ builder _ _ _ _ _ ih =>
    exact hprinting.openArguments.closeArguments
      (ih (printing_nested options (depth + 1) builder.openArguments))

/-- Everything that any acts build is linear. -/
theorem linear_of_acts {care : Care} {builder last : Builder} {tokens : List Token}
    {said : List Entry} (h : Acts care builder tokens said last) (hlinear : builder.Linear) :
    last.Linear := by
  have hbreak : ∀ {builder : Builder} (count : Nat) (ending : Ending), builder.Linear →
      (if builder.ending == .content then builder.hardBreak count ending else builder).Linear := by
    intro builder count ending hlinear
    split
    · exact hlinear.hardBreak count ending
    · exact hlinear
  induction h with
  | nil => exact hlinear
  | append _ _ ih ih' => exact ih' (ih hlinear)
  | text content | literal content => exact hlinear.write content
  | space =>
    unfold Builder.putSpace
    split
    · exact ⟨hlinear.parts, hlinear.piece⟩
    · exact hlinear
  | paragraph =>
    unfold Builder.leaveParagraph
    split
    · exact hlinear
    · exact hlinear.hardBreak 1 .paragraph
    · exact hlinear.hardBreak 2 .paragraph
  | newline => exact hlinear.hardBreak 1 .newline
  | ensureNewline => exact hbreak 1 .newline hlinear
  | preferParagraph => exact hbreak 2 .paragraph hlinear
  | comment content sameline =>
    cases sameline
    · exact ((hbreak 1 .newline hlinear).write _).hardBreak 1 .newline
    · exact (hlinear.write _).hardBreak 1 .newline
  | softline | spaceline => exact hlinear.push rfl
  | held _ ih =>
    have hinner := ih ⟨hlinear.parts, hlinear.piece⟩
    exact ⟨hinner.parts, hinner.piece⟩
  | indented _ _ _ ih => exact hlinear.closeBody (ih (linear_nested _))
  | bracketed _ _ ih =>
    have hopen := hlinear.resolveSpace ['[']
    exact Linear.closeArguments ⟨hopen.parts, hopen.piece⟩ (ih (linear_nested _))

end Builder

/-- The document of a tree is linear. -/
theorem isLinear_ofNode (node : Node) : (ofNode node).isLinear = true := by
  have h : (addNode {} node).Linear :=
    Builder.linear_of_acts (acts_addNode_free node {}) (Builder.linear_nested {})
  unfold ofNode
  dsimp only
  split
  · exact (h.push rfl).finish
  · exact h.finish

/-- The document of a tree prints its entries. -/
theorem delivers_ofNode (options : LayoutOptions) (node : Node) :
    ∃ ending, Delivers ((ofNode node).strands options {}) .start node.entries ending := by
  have h : (addNode {} node).Printing options 0 .start node.entries :=
    Builder.printing_of_acts options (acts_addNode_free node {})
      (Builder.printing_nested options 0 {})
  refine ⟨(addNode {} node).ending, ?_⟩
  unfold ofNode
  dsimp only
  rw [Builder.strands_finish]
  split
  · have hpush := Builder.strands_push options 0 (addNode {} node) (text " ")
    have hspace : Delivers (((addNode {} node).push (text " ")).strands options 0) .start
        node.entries (addNode {} node).ending :=
      hpush ▸ Delivers.append_nil h (delivers_space _)
    exact hspace
  · exact h

end Doc

/-! ## Both printers -/

/-- The token printer writes the entries of a tree. -/
theorem printout_tokens (options : TextOptions) (node : Node) :
    ∃ ending, Printout node.entries ending (printTokens options node).toList.reverse := by
  have hstart : ({} : Token.Page).Shows [] := Printout.start
  have h := Token.shows_of_acts options (acts_addNode_free node {}) hstart
  refine ⟨(Token.layOut options (Token.ofNode node)).ending, ?_⟩
  rw [printTokens, Token.render, String.toList_ofList, List.reverse_reverse]
  exact h

/-- The layout engine writes the entries of a tree. -/
theorem printout_doc (options : LayoutOptions) (node : Node) :
    ∃ ending, Printout node.entries ending (printDoc options node).toList.reverse := by
  obtain ⟨out, htext, hw⟩ := Doc.render_written options (Doc.isLinear_ofNode node)
  obtain ⟨ending, hprints⟩ := Doc.delivers_ofNode options node
  refine ⟨ending, ?_⟩
  rw [printDoc, htext, String.toList_ofList, List.reverse_reverse]
  exact hprints [] [] out hw Printout.start

end LatexFormatter
