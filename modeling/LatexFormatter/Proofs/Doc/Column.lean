import LatexFormatter.Proofs.Doc.Conservation
import LatexFormatter.Proofs.Doc.Strokes
import LatexFormatter.Proofs.Doc.Wide
import Mathlib.Data.List.Infix
import Mathlib.Data.List.TakeWhile
import Mathlib.Tactic.Ring

/-
  The column that the layout goes by, against the line that is really there. A tab
  of a margin counts as many columns as tabs are wide, every other character counts
  one; so which characters of a line are its margin has to be known. It is followed
  beside the machine, stroke by stroke (`Inset`).

  The column is the width of the line, except that removing blanks takes back one
  column for each of them, tabs of the margin included: where the blanks go into
  the margin, each tab that is lost leaves the column too far to the right
  (`column_eq_lineWidth`). And margins of more columns than the machine's signed
  numbers have are wrapped around.
-/

namespace LatexFormatter.Doc

/-! ## The width of margins -/

/-- The columns that characters of a margin take. -/
def visualWidth (options : LayoutOptions) : List Char → Nat
  | [] => 0
  | c :: cs => (if c = '\t' then options.tabWidth else 1) + visualWidth options cs

section

variable {options : LayoutOptions}

@[simp] theorem visualWidth_append (xs ys : List Char) :
    visualWidth options (xs ++ ys) = visualWidth options xs + visualWidth options ys := by
  induction xs with
  | nil => simp [visualWidth]
  | cons c xs ih =>
    simp only [List.cons_append, visualWidth, ih]
    omega

@[simp] theorem visualWidth_replicate (count : Nat) (c : Char) :
    visualWidth options (List.replicate count c)
      = (if c = '\t' then options.tabWidth else 1) * count := by
  induction count with
  | zero => rfl
  | succ count ih =>
    rw [List.replicate_succ, visualWidth, ih, Nat.mul_succ]
    omega

theorem visualWidth_of_notMem {cs : List Char} (h : '\t' ∉ cs) :
    visualWidth options cs = cs.length := by
  induction cs with
  | nil => rfl
  | cons c cs ih =>
    simp only [List.mem_cons, not_or] at h
    obtain ⟨hc, hcs⟩ := h
    rw [visualWidth, if_neg (Ne.symm hc), ih hcs, List.length_cons]
    omega

/-- Tabs take as many columns as they are wide, other characters one. -/
theorem visualWidth_eq (cs : List Char) :
    (visualWidth options cs : Int)
      = cs.length + ((options.tabWidth : Int) - 1) * cs.count '\t' := by
  induction cs with
  | nil => simp [visualWidth]
  | cons c cs ih =>
    rw [visualWidth, Nat.cast_add, ih, List.length_cons, List.count_cons]
    by_cases hc : c = '\t'
    · simp [hc]
      ring
    · simp [hc]
      ring

namespace IndentWriter

variable {writer : IndentWriter}

theorem visualWidth_flush (h : writer.length = visualWidth options writer.value) :
    (writer.flush options).length = visualWidth options (writer.flush options).value := by
  unfold flush
  split
  · simp [addTabs, settle, h]
  · simp [addSpaces, settle, h]

/-- Each change is counted as it is written. -/
theorem visualWidth_add {part : IndentPart}
    (hpart : ∀ content, part = .text content → '\t' ∉ content)
    (h : writer.length = visualWidth options writer.value) :
    (writer.add options part).length = visualWidth options (writer.add options part).value := by
  have hflush := visualWidth_flush h
  cases part with
  | columns count => exact h
  | text content => simp [add, hflush, visualWidth_of_notMem (hpart content rfl)]
  | level =>
    simp only [add]
    split
    · simp [addTabs, hflush, visualWidth]
    · simp [addSpaces, hflush]

end IndentWriter

/-- The length of a margin is its width, unless text with a tab has been put in. -/
theorem length_ofParts {parts : List IndentPart}
    (h : ∀ part ∈ parts, ∀ content, part = .text content → '\t' ∉ content) :
    (Margin.ofParts options parts).length
      = visualWidth options (Margin.ofParts options parts).value := by
  have hfold : ∀ writer : IndentWriter, writer.length = visualWidth options writer.value →
      (parts.foldl (IndentWriter.add options) writer).length
        = visualWidth options (parts.foldl (IndentWriter.add options) writer).value := by
    induction parts with
    | nil => exact fun writer hwriter => hwriter
    | cons part rest ih =>
      intro writer hwriter
      obtain ⟨hpart, hrest⟩ := List.forall_mem_cons.1 h
      exact ih hrest _ (IndentWriter.visualWidth_add hpart hwriter)
  simp [Margin.ofParts, IndentWriter.addSpaces, hfold {} rfl]

/-- Where no tabs are used, a margin has none of its own. -/
theorem tab_notMem_ofParts (htabs : options.useTabs = false) {parts : List IndentPart}
    (h : ∀ part ∈ parts, ∀ content, part = .text content → '\t' ∉ content) :
    '\t' ∉ (Margin.ofParts options parts).value := by
  have hfold : ∀ writer : IndentWriter, '\t' ∉ writer.value →
      '\t' ∉ (parts.foldl (IndentWriter.add options) writer).value := by
    induction parts with
    | nil => exact fun writer hwriter => hwriter
    | cons part rest ih =>
      intro writer hwriter
      obtain ⟨hpart, hrest⟩ := List.forall_mem_cons.1 h
      refine ih hrest _ ?_
      cases part with
      | columns count => exact hwriter
      | text content =>
        simp [IndentWriter.add, IndentWriter.flush, IndentWriter.addSpaces, IndentWriter.settle,
          htabs, hwriter, hpart content rfl]
      | level =>
        simp [IndentWriter.add, IndentWriter.flush, IndentWriter.addSpaces, IndentWriter.settle,
          htabs, hwriter]
  simp [Margin.ofParts, IndentWriter.addSpaces, hfold {} (by simp)]

end

/-- An indentation whose margins are what their changes amount to. -/
structure Indentation.Drawn (options : LayoutOptions) (indentation : Indentation) : Prop where
  margin : indentation.margin = Margin.ofParts options indentation.margin.parts
  roots : ∀ margin ∈ indentation.roots, margin = Margin.ofParts options margin.parts

namespace Indentation.Drawn

variable {options : LayoutOptions} {indentation : Indentation}

theorem push (h : indentation.Drawn options) (part : IndentPart) :
    (indentation.push options part).Drawn options :=
  ⟨rfl, h.roots⟩

theorem align (h : indentation.Drawn options) (alignment : Alignment) :
    (indentation.align options alignment).Drawn options := by
  cases alignment with
  | width columns =>
    simp only [Indentation.align]
    split
    · exact h
    · exact h.push _
  | text content =>
    simp only [Indentation.align]
    split
    · exact h
    · exact h.push _
  | dedent => exact ⟨rfl, h.roots⟩
  | dedentToRoot =>
    obtain ⟨margin, roots⟩ := indentation
    cases roots with
    | nil => exact ⟨rfl, by simp [Indentation.align, Indentation.root]⟩
    | cons first rest =>
      obtain ⟨hfirst, hrest⟩ := List.forall_mem_cons.1 h.roots
      exact ⟨hfirst, hrest⟩
  | markRoot => exact ⟨h.margin, List.forall_mem_cons.2 ⟨h.margin, h.roots⟩⟩

theorem lineMargin (h : indentation.Drawn options) (literal : Bool) :
    indentation.lineMargin literal
      = Margin.ofParts options (indentation.lineMargin literal).parts := by
  obtain ⟨margin, roots⟩ := indentation
  cases literal with
  | false => exact h.margin
  | true =>
    cases roots with
    | nil => rfl
    | cons first rest => exact h.roots first (List.mem_cons_self ..)

end Indentation.Drawn

theorem Indentation.Blank.lineMargin {indentation : Indentation} (h : indentation.Blank)
    (literal : Bool) : (indentation.lineMargin literal).Blank := by
  cases literal with
  | false => exact h.margin
  | true => exact h.root

/-! ## Documents without text in their margins -/

mutual

/-- Whether no change of indentation brings in text and, unless `trimming`, no
blanks are removed on demand. -/
def hasNoTextAlign (trimming : Bool) : Doc → Bool
  | text _ => true
  | concat parts => allHaveNoTextAlign trimming parts
  | group contents _ none => hasNoTextAlign trimming contents
  | group contents _ (some states) =>
    hasNoTextAlign trimming contents && allHaveNoTextAlign trimming states
  | fill parts => allHaveNoTextAlign trimming parts
  | indent contents => hasNoTextAlign trimming contents
  | align alignment contents => !alignment.isText && hasNoTextAlign trimming contents
  | line _ _ _ => true
  | ifBreak broken flat => hasNoTextAlign trimming broken && hasNoTextAlign trimming flat
  | lineSuffix contents => hasNoTextAlign trimming contents
  | lineSuffixBoundary => true
  | breakParent => true
  | trim => trimming
  | cursor => true

/-- Whether this is so of all of several documents. -/
def allHaveNoTextAlign (trimming : Bool) : List Doc → Bool
  | [] => true
  | doc :: rest => hasNoTextAlign trimming doc && allHaveNoTextAlign trimming rest

end

section

variable {trimming : Bool}

theorem allHaveNoTextAlign_iff {docs : List Doc} :
    allHaveNoTextAlign trimming docs = true ↔ ∀ doc ∈ docs, hasNoTextAlign trimming doc = true := by
  induction docs with
  | nil => simp [allHaveNoTextAlign]
  | cons doc rest ih => simp [allHaveNoTextAlign, ih]

mutual

theorem hasNoTextAlign_propagateBreaks : ∀ doc : Doc,
    hasNoTextAlign trimming (propagateBreaks doc).1 = hasNoTextAlign trimming doc
  | text _ | line _ _ _ | lineSuffixBoundary | breakParent | trim | cursor => rfl
  | concat parts => by simp [propagateBreaks, hasNoTextAlign, allHaveNoTextAlign_propagateAll parts]
  | fill parts => by simp [propagateBreaks, hasNoTextAlign, allHaveNoTextAlign_propagateAll parts]
  | group contents _ none => by
    simp [propagateBreaks, hasNoTextAlign, hasNoTextAlign_propagateBreaks contents]
  | group contents _ (some states) => by
    simp [propagateBreaks, hasNoTextAlign, hasNoTextAlign_propagateBreaks contents,
      allHaveNoTextAlign_propagateAll states]
  | indent contents => by
    simp [propagateBreaks, hasNoTextAlign, hasNoTextAlign_propagateBreaks contents]
  | align _ contents => by
    simp [propagateBreaks, hasNoTextAlign, hasNoTextAlign_propagateBreaks contents]
  | lineSuffix contents => by
    simp [propagateBreaks, hasNoTextAlign, hasNoTextAlign_propagateBreaks contents]
  | ifBreak broken flat => by
    simp [propagateBreaks, hasNoTextAlign, hasNoTextAlign_propagateBreaks broken,
      hasNoTextAlign_propagateBreaks flat]

theorem allHaveNoTextAlign_propagateAll : ∀ docs : List Doc,
    allHaveNoTextAlign trimming (propagateAll docs).1 = allHaveNoTextAlign trimming docs
  | [] => rfl
  | doc :: rest => by
    simp [propagateAll, allHaveNoTextAlign, hasNoTextAlign_propagateBreaks doc,
      allHaveNoTextAlign_propagateAll rest]

end

end

/-- A command whose document and margins have no text in their margins. -/
structure Command.NoTextAlign (options : LayoutOptions) (trimming : Bool) (command : Command) :
    Prop where
  doc : command.doc.hasNoTextAlign trimming = true
  blank : command.indentation.Blank
  drawn : command.indentation.Drawn options

/-- Commands pass it on. -/
theorem Command.NoTextAlign.yields {options : LayoutOptions} {trimming : Bool}
    {command other : Command} (h : command.NoTextAlign options trimming)
    (hyields : command.Yields options other) : other.NoTextAlign options trimming := by
  obtain ⟨hdoc, hblank, hdrawn⟩ := h
  cases hyields with
  | concat hmem => exact ⟨allHaveNoTextAlign_iff.1 hdoc _ hmem, hblank, hdrawn⟩
  | fill hmem => exact ⟨allHaveNoTextAlign_iff.1 hdoc _ hmem, hblank, hdrawn⟩
  | refill hsuffix =>
    refine ⟨allHaveNoTextAlign_iff.2 ?_, hblank, hdrawn⟩
    intro doc hmem
    exact allHaveNoTextAlign_iff.1 hdoc doc (hsuffix.subset hmem)
  | @contents _ _ _ _ _ states =>
    refine ⟨?_, hblank, hdrawn⟩
    cases states with
    | none => exact hdoc
    | some states => exact (Bool.and_eq_true_iff.1 hdoc).1
  | state hmem =>
    exact ⟨allHaveNoTextAlign_iff.1 (Bool.and_eq_true_iff.1 hdoc).2 _ hmem, hblank, hdrawn⟩
  | indent => exact ⟨hdoc, hblank.push (by simp), hdrawn.push _⟩
  | align =>
    obtain ⟨halignment, hcontents⟩ := Bool.and_eq_true_iff.1 hdoc
    exact ⟨hcontents, hblank.align (by simpa using halignment), hdrawn.align _⟩
  | @ifBreak _ flow =>
    obtain ⟨hbroken, hflat⟩ := Bool.and_eq_true_iff.1 hdoc
    cases flow
    · exact ⟨hbroken, hblank, hdrawn⟩
    · exact ⟨hflat, hblank, hdrawn⟩
  | lineSuffix => exact ⟨hdoc, hblank, hdrawn⟩
  | boundary => exact ⟨rfl, hblank, hdrawn⟩
  | line => exact ⟨rfl, hblank, hdrawn⟩

/-! ## The line and its margin -/

/-- The margin that the current line was started with, and how many of its
characters are still there. -/
structure Inset where
  margin : Margin := {}
  left : Nat := 0
  deriving Repr, DecidableEq

/-- How many tabs of the margin have been removed again. -/
def Inset.lostTabs (inset : Inset) : Nat := (inset.margin.value.drop inset.left).count '\t'

namespace Machine

/-- The output after the last line feed. -/
def currentLine (machine : Machine) : List Char := (machine.out.takeWhile (· != '\n')).reverse

/-- The columns that the current line takes. -/
def lineWidth (options : LayoutOptions) (inset : Inset) (machine : Machine) : Nat :=
  visualWidth options (machine.currentLine.take inset.left)
    + (machine.currentLine.drop inset.left).length

end Machine

/-- The inset of the current line after a stroke. -/
def Inset.after (machine : Machine) (inset : Inset) : Stroke → Inset
  | .nothing => inset
  | .write content => if content.contains '\n' then {} else inset
  | .trim => { inset with left := min inset.left machine.trim.currentLine.length }
  | .start _ margin => ⟨margin, margin.value.length⟩
  | .mark => inset

/-- The states that a document is laid out in, each with the inset of its line. -/
inductive Lays (options : LayoutOptions) (doc : Doc) : Machine → Inset → Prop
  | start : Lays options doc (initial doc) {}
  | step {machine next : Machine} {inset : Inset} (h : Lays options doc machine inset)
      (hstep : machine.step options = some next) :
      Lays options doc next (inset.after machine machine.stroke)

section

open Machine

variable {options : LayoutOptions} {doc : Doc} {machine : Machine} {inset : Inset}
  {margin : Margin}

theorem Lays.reaches (h : Lays options doc machine inset) :
    Reaches options (initial doc) machine := by
  induction h with
  | start => exact .refl
  | step _ hstep ih => exact ih.step hstep

theorem exists_lays (h : Reaches options (initial doc) machine) :
    ∃ inset, Lays options doc machine inset := by
  induction h with
  | refl => exact ⟨{}, .start⟩
  | step _ hstep ih =>
    obtain ⟨inset, hlays⟩ := ih
    exact ⟨_, hlays.step hstep⟩

theorem Lays.noTextAlign {trimming : Bool} (hdoc : doc.hasNoTextAlign trimming = true)
    (h : Lays options doc machine inset) (command : Command) (hcommand : machine.Holds command) :
    command.NoTextAlign options trimming := by
  refine h.reaches.all (fun h hyields => h.yields hyields) ?_ command hcommand
  intro command hcommand
  obtain rfl : command = ⟨{}, .broken, doc.propagateBreaks.1⟩ := by
    simpa [Holds, initial] using hcommand
  exact ⟨(hasNoTextAlign_propagateBreaks doc).trans hdoc, ⟨blank_empty, by simp⟩, ⟨rfl, by simp⟩⟩

/-! ## What a stroke does to the line -/

theorem isSpace_newline : isSpace '\n' = false := rfl

/-- The line ends with the blanks that removing them takes. -/
theorem currentLine_trim (machine : Machine) :
    machine.currentLine = machine.trim.currentLine ++ (machine.tail.takeWhile isSpace).reverse := by
  have hblanks : ∀ c ∈ machine.tail.takeWhile isSpace, (c != '\n') = true := by
    intro c hc
    have hspace := List.mem_takeWhile_imp hc
    apply bne_iff_ne.2
    rintro rfl
    rw [isSpace_newline] at hspace
    cases hspace
  have hout : machine.out = machine.tail.takeWhile isSpace ++ machine.trim.out := by
    simp only [out, Machine.trim, ← List.append_assoc, List.takeWhile_append_dropWhile]
  rw [currentLine, hout, List.takeWhile_append_of_pos hblanks, List.reverse_append]
  rfl

/-- Text without a line feed goes on the line that the output ends in. -/
theorem takeWhile_reverse_append {content : List Char} (h : '\n' ∉ content) (out : List Char) :
    (content.reverse ++ out).takeWhile (· != '\n')
      = content.reverse ++ out.takeWhile (· != '\n') := by
  apply List.takeWhile_append_of_pos
  intro c hc
  apply bne_iff_ne.2
  rintro rfl
  exact h (List.mem_reverse.1 hc)

/-- Text with a line feed starts the line that the output ends in. -/
theorem takeWhile_reverse_append_newline {content : List Char} (h : '\n' ∈ content)
    (out : List Char) :
    (content.reverse ++ out).takeWhile (· != '\n') = content.reverse.takeWhile (· != '\n') := by
  have hshort : (content.reverse.takeWhile (· != '\n')).length ≠ content.reverse.length := by
    intro hlength
    have hall := (List.takeWhile_prefix (· != '\n')).eq_of_length hlength
    have hne := List.takeWhile_eq_self_iff.1 hall '\n' (List.mem_reverse.2 h)
    simp at hne
  rw [List.takeWhile_append, if_neg hshort]

theorem currentLine_write {content : List Char} (h : '\n' ∉ content) (machine : Machine) :
    (machine.write content).currentLine = machine.currentLine ++ content := by
  simp only [currentLine, out, write, List.append_assoc]
  rw [takeWhile_reverse_append h, List.reverse_append, List.reverse_reverse]

/-- What a text puts on the line that it starts. -/
theorem currentLine_write_newline {content : List Char} (h : '\n' ∈ content) (machine : Machine) :
    (machine.write content).currentLine = (content.reverse.takeWhile (· != '\n')).reverse := by
  simp only [currentLine, out, write, List.append_assoc]
  rw [takeWhile_reverse_append_newline h]

theorem currentLine_startLine {margin : Margin} (h : '\n' ∉ margin.value) (machine : Machine) :
    (machine.startLine margin).currentLine = margin.value := by
  simp only [currentLine, out, startLine, List.append_assoc, List.cons_append]
  rw [takeWhile_reverse_append h]
  simp

theorem out_mark (machine : Machine) : machine.mark.out = machine.out := by
  unfold mark
  split <;> rfl

/-- What a number loses when it is cut does not show in what it leaves. -/
theorem mod_hold_add (machine : Machine) (n m : Int) :
    (machine.hold n + m) % wordLimit = (n + m) % wordLimit :=
  Int.add_emod_eq_add_emod_right m (signedWord_mod n machine.out.length)

theorem column_mark (machine : Machine) : machine.mark.column = machine.column := by
  unfold mark
  split <;> rfl

/-- The line starts with what is left of its margin, and the column is as far from
the length of the line as the length of the margin is from that of its text, but
for what numbers lose when they are cut. -/
structure Inset.Follows (options : LayoutOptions) (machine : Machine) (inset : Inset) : Prop where
  blank : inset.margin.Blank
  drawn : inset.margin = Margin.ofParts options inset.margin.parts
  left : inset.left ≤ inset.margin.value.length
  standing : inset.margin.value.take inset.left <+: machine.currentLine
  column : (machine.column + inset.margin.value.length) % wordLimit
    = ((inset.margin.length : Int) + machine.currentLine.length) % wordLimit

namespace Inset.Follows

theorem write (h : inset.Follows options machine) (content : List Char) :
    (inset.after machine (.write content)).Follows options (machine.write content) := by
  by_cases hnewline : '\n' ∈ content
  · -- the text starts a line of its own
    have hafter : inset.after machine (.write content) = {} := by simp [after, hnewline]
    rw [hafter]
    refine ⟨blank_empty, rfl, Nat.le_refl _, List.nil_prefix, ?_⟩
    rw [currentLine_write_newline hnewline]
    simp [Machine.write, hnewline]
  · have hafter : inset.after machine (.write content) = inset := by simp [after, hnewline]
    rw [hafter]
    refine ⟨h.blank, h.drawn, h.left, ?_, ?_⟩
    · rw [currentLine_write hnewline]
      exact h.standing.trans (List.prefix_append ..)
    · rw [currentLine_write hnewline, List.length_append]
      simp only [Machine.write, List.contains_iff_mem, hnewline, if_false]
      refine (mod_hold_add _ _ _).trans ?_
      have hmoved := Int.add_emod_eq_add_emod_right (content.length : Int) h.column
      rw [Int.add_right_comm]
      simpa [Int.add_assoc] using hmoved

/-- Blanks that are removed may go into the margin; each counts for one column
there, too. -/
theorem trim (h : inset.Follows options machine) :
    (inset.after machine .trim).Follows options machine.trim := by
  have hline := currentLine_trim machine
  have hleft := h.left
  refine ⟨h.blank, h.drawn, ?_, ?_, ?_⟩
  · show min inset.left machine.trim.currentLine.length ≤ inset.margin.value.length
    omega
  · show inset.margin.value.take (min inset.left machine.trim.currentLine.length)
      <+: machine.trim.currentLine
    have hstanding := h.standing
    rw [hline] at hstanding
    rw [Nat.min_comm, ← List.take_take]
    simpa using hstanding.take machine.trim.currentLine.length
  · have hcolumn := h.column
    rw [hline, List.length_append, List.length_reverse] at hcolumn
    have hmoved := Int.add_emod_eq_add_emod_right
      (-((machine.tail.takeWhile isSpace).length : Int)) hcolumn
    refine (mod_hold_add _ _ _).trans ?_
    rw [Int.sub_eq_add_neg, Int.add_right_comm]
    simpa [after, Int.add_assoc] using hmoved

theorem start (hblank : margin.Blank) (hdrawn : margin = Margin.ofParts options margin.parts)
    (literal : Bool) :
    (inset.after machine (.start literal margin)).Follows options
      ((Stroke.start literal margin).draw machine) := by
  have hnewline : '\n' ∉ margin.value := by
    intro hmem
    have hspace := hblank.value _ hmem
    rw [isSpace_newline] at hspace
    cases hspace
  have hline := currentLine_startLine hnewline (if literal then machine else machine.trim)
  refine ⟨hblank, hdrawn, Nat.le_refl _, ?_, ?_⟩
  · show margin.value.take margin.value.length
      <+: ((if literal then machine else machine.trim).startLine margin).currentLine
    rw [hline, List.take_length]
  · show (signed64 margin.length + (margin.value.length : Int)) % wordLimit = (margin.length
      + (((if literal then machine else machine.trim).startLine margin).currentLine).length : Int)
        % wordLimit
    rw [hline]
    exact Int.add_emod_eq_add_emod_right _ (signed64_mod margin.length)

theorem mark (h : inset.Follows options machine) :
    (inset.after machine .mark).Follows options machine.mark := by
  refine ⟨h.blank, h.drawn, h.left, ?_, ?_⟩
  · rw [currentLine, out_mark]
    exact h.standing
  · rw [column_mark, currentLine, out_mark]
    exact h.column

/-- A stroke that starts no line, or one with a margin of blanks. -/
theorem draw (h : inset.Follows options machine) {stroke : Stroke}
    (hmargin : ∀ literal margin, stroke = .start literal margin →
      margin.Blank ∧ margin = Margin.ofParts options margin.parts) :
    (inset.after machine stroke).Follows options (stroke.draw machine) := by
  cases stroke with
  | nothing => exact h
  | write content => exact h.write content
  | trim => exact h.trim
  | start literal margin =>
    obtain ⟨hblank, hdrawn⟩ := hmargin literal margin rfl
    exact start hblank hdrawn literal
  | mark => exact h.mark

end Inset.Follows

/-- Machines that have drawn the same are on the same line. -/
theorem Inset.Follows.congr {drawn : Machine} (h : inset.Follows options drawn)
    (hdraws : machine.Draws drawn) : inset.Follows options machine := by
  obtain ⟨commands, suffixes, remeasure, rfl⟩ := hdraws
  exact ⟨h.blank, h.drawn, h.left, h.standing, h.column⟩

theorem Command.stroke_eq_start {kept literal : Bool} {command : Command}
    (h : command.stroke kept = .start literal margin) :
    margin = command.indentation.lineMargin literal := by
  obtain ⟨indentation, flow, doc⟩ := command
  cases doc with
  | line hard soft literal' =>
    simp only [Command.stroke] at h
    split at h
    · split at h <;> cases h
    · split at h <;> cases h
      rfl
  | text | concat | group | fill | indent | align | ifBreak | lineSuffix | lineSuffixBoundary
  | breakParent | trim | cursor => cases h

theorem Command.stroke_eq_trim {kept : Bool} {command : Command}
    (h : command.stroke kept = .trim) : command.doc = trim := by
  obtain ⟨indentation, flow, doc⟩ := command
  cases doc with
  | line hard soft literal =>
    simp only [Command.stroke] at h
    split at h
    · split at h <;> cases h
    · split at h <;> cases h
  | trim => rfl
  | text | concat | group | fill | indent | align | ifBreak | lineSuffix | lineSuffixBoundary
  | breakParent | cursor => cases h

/-- In every state the inset is that of the line. -/
theorem Lays.follows {trimming : Bool} (hdoc : doc.hasNoTextAlign trimming = true)
    (h : Lays options doc machine inset) : inset.Follows options machine := by
  induction h with
  | start =>
    refine ⟨blank_empty, rfl, Nat.le_refl _, List.nil_prefix, ?_⟩
    simp [initial, currentLine, out]
  | @step machine next inset hlays hstep ih =>
    obtain ⟨command, rest, hcommands⟩ := exists_command hstep
    refine (ih.draw ?_).congr (step_draws hstep)
    intro literal margin hstroke
    have hmargins := hlays.noTextAlign hdoc command (Or.inl (by simp [hcommands]))
    simp only [Machine.stroke, hcommands] at hstroke
    rw [Command.stroke_eq_start hstroke]
    exact ⟨hmargins.blank.lineMargin literal, hmargins.drawn.lineMargin literal⟩

/-- Where no blanks are removed on demand, margins stay whole. -/
theorem Lays.whole (hdoc : doc.hasNoTextAlign false = true) (h : Lays options doc machine inset) :
    inset.left = inset.margin.value.length := by
  induction h with
  | start => rfl
  | @step machine next inset hlays hstep ih =>
    obtain ⟨command, rest, hcommands⟩ := exists_command hstep
    have hmargins := hlays.noTextAlign hdoc command (Or.inl (by simp [hcommands]))
    cases hstroke : machine.stroke with
    | nothing => exact ih
    | mark => exact ih
    | start literal margin => rfl
    | write content =>
      simp only [Inset.after]
      split
      · rfl
      · exact ih
    | trim =>
      simp only [Machine.stroke, hcommands] at hstroke
      have htrim := hmargins.doc
      rw [Command.stroke_eq_trim hstroke] at htrim
      cases htrim

theorem Inset.Follows.parts (h : inset.Follows options machine) :
    ∀ part ∈ inset.margin.parts, ∀ content, part = .text content → '\t' ∉ content :=
  fun part hpart content htext => absurd htext (h.blank.parts part hpart content)

/-- The column against the width of the line. -/
theorem Inset.Follows.column_eq (h : inset.Follows options machine) :
    machine.column % wordLimit = (machine.lineWidth options inset
      + ((options.tabWidth : Int) - 1) * inset.lostTabs) % wordLimit := by
  have hlength : inset.margin.length = visualWidth options inset.margin.value := by
    rw [h.drawn]
    exact length_ofParts h.parts
  -- the margin is what is left of it and what has been lost
  have hsplit : visualWidth options inset.margin.value
      = visualWidth options (inset.margin.value.take inset.left)
        + visualWidth options (inset.margin.value.drop inset.left) := by
    rw [← visualWidth_append, List.take_append_drop]
  have hlost := @visualWidth_eq options (inset.margin.value.drop inset.left)
  have hstanding : machine.currentLine.take inset.left = inset.margin.value.take inset.left := by
    obtain ⟨more, hline⟩ := h.standing
    rw [← hline, List.take_append_of_le_length, List.take_take, Nat.min_self]
    rw [List.length_take]
    have := h.left
    omega
  have hle : inset.left ≤ machine.currentLine.length := by
    have := h.standing.length_le
    have := h.left
    rw [List.length_take] at *
    omega
  have hcolumn := Int.add_emod_eq_add_emod_right (-(inset.margin.value.length : Int)) h.column
  rw [Int.add_neg_cancel_right] at hcolumn
  rw [hcolumn]
  have hleft := h.left
  refine congrArg (· % (wordLimit : Int)) ?_
  rw [Machine.lineWidth, hstanding, Inset.lostTabs, List.length_drop]
  rw [List.length_drop] at hlost
  omega

end

open Machine in
/-- **The column against the line.** Of a document with no text in its margins, in
every state that its layout comes to, the column is the width of the text after the
last line feed, tabs of the margin counted as wide as tabs are and everything else
as one, except for two things: a tab of the margin that has been removed is taken
back as one column only, and a number that is too high is cut to 64 bits and read
with a sign. Unless blanks are removed on demand and tabs are used, no tab is lost;
and below 2^63 columns nothing is cut. -/
theorem column_eq_lineWidth (options : LayoutOptions) {doc : Doc} {machine : Machine}
    (hdoc : doc.hasNoTextAlign true = true) (hreach : Reaches options (initial doc) machine)
    (hmemory : machine.out.length < signedLimit) :
    (∃ inset, Lays options doc machine inset) ∧
      ∀ inset, Lays options doc machine inset →
        inset.margin.value.take inset.left <+: machine.currentLine ∧
        machine.column = (machine.lineWidth options inset
          + ((options.tabWidth : Int) - 1) * inset.lostTabs).bmod wordLimit ∧
        (inset.lostTabs = 0 → machine.lineWidth options inset < signedLimit →
          machine.column = machine.lineWidth options inset) ∧
        (doc.hasNoTextAlign false = true ∨ options.useTabs = false → inset.lostTabs = 0) := by
  refine ⟨exists_lays hreach, fun inset hlays => ?_⟩
  have hfollows := hlays.follows hdoc
  have hcolumn := eq_bmod_of_mod (hreach.numbered hmemory) hfollows.column_eq
  refine ⟨hfollows.standing, hcolumn, ?_, ?_⟩
  · intro hlost hlimit
    rw [hcolumn, hlost, Int.natCast_zero, Int.mul_zero, Int.add_zero]
    exact bmod_of_fits ⟨by omega, by omega⟩
  · rintro (hdoc | htabs)
    · rw [Inset.lostTabs, hlays.whole hdoc, List.drop_length]
      rfl
    · have hnone : '\t' ∉ inset.margin.value := by
        rw [hfollows.drawn]
        exact tab_notMem_ofParts htabs hfollows.parts
      exact List.count_eq_zero.2 fun hmem => hnone (List.mem_of_mem_drop hmem)

open Machine in
/-- An indented line: one tab, which is eight columns wide, and two letters. -/
theorem column_eq_lineWidth_indented :
    let doc : Doc := indent (concat [hardline, text "ab"])
    let machine : Machine := { column := 10, tail := ['b', 'a', '\t', '\n'] }
    let inset : Inset := ⟨⟨[.level], ['\t'], 8⟩, 1⟩
    doc.hasNoTextAlign true = true ∧ Reaches {} (initial doc) machine ∧
      Lays {} doc machine inset ∧ machine.column = machine.lineWidth {} inset := by
  intro doc machine inset
  have hdoc : doc.hasNoTextAlign true = true := by decide
  have hlays : Lays {} doc machine inset :=
    ((((((@Lays.start {} doc).step rfl).step rfl).step rfl).step rfl).step rfl).step rfl
  obtain ⟨-, hcolumn⟩ := column_eq_lineWidth {} hdoc hlays.reaches (by decide)
  obtain ⟨-, -, hwidth, hlost⟩ := hcolumn inset hlays
  exact ⟨hdoc, hlays.reaches, hlays, hwidth (hlost (Or.inl (by decide))) (by decide)⟩

open Machine in
/-- Blanks removed right after an indented line break: the tab is gone, but seven of
its eight columns are still counted on an empty line. -/
theorem column_counts_removed_tab :
    let doc : Doc := indent (concat [hardline, trim])
    let machine : Machine := { column := 7, tail := ['\n'] }
    doc.hasNoTextAlign true = true ∧ Reaches {} (initial doc) machine ∧
      machine.currentLine = [] ∧ ∀ inset, machine.lineWidth {} inset = 0 := by
  intro doc machine
  let indented : Command := ⟨({} : Indentation).indent {}, .broken, .trim⟩
  have htrim : ({ column := 8, tail := ['\t', '\n'], commands := [indented] } : Machine).step {}
      = some machine := by
    have hseven : FitsSigned 7 := by decide
    simp [Machine.step, Machine.execute, Machine.trim, hold_of_fits hseven, settle, release,
      isSpace,
      indented, machine]
  have hreach : Reaches {} (initial doc) machine :=
    (((((Reaches.refl.step rfl).step rfl).step rfl).step rfl).step rfl).step htrim
  refine ⟨by decide, hreach, rfl, fun inset => ?_⟩
  simp [machine, lineWidth, currentLine, out, visualWidth]

end LatexFormatter.Doc
