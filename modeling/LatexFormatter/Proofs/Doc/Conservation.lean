import LatexFormatter.Proofs.Printing.Visible

/-
  The layout loses nothing. A document that chooses between no alternatives, and
  puts no text into its margins, has the same characters as what it is printed
  as, blanks and line feeds apart; where nothing is kept back they come in the
  same order (`render_conserves`).

  What a machine has written, what it is about to write and what it keeps back
  make up one text (`Machine.content`). A step only moves the border between
  them, or moves what is kept back behind or before the commands that are left.

  Text that is kept back is printed at the end of its line. For lines put
  together from text and suffixes this is said exactly, by the text of the lines
  (`Part.layOut`).
-/

namespace LatexFormatter

/-- Whether a change of indentation brings in text. -/
def Alignment.isText : Alignment → Bool
  | .text _ => true
  | _ => false

namespace Doc

/-! ## The text of a document -/

mutual

/-- The text of all leaves, from left to right. -/
def leaves : Doc → List Char
  | text content => content.toList
  | concat parts => leavesAll parts
  | group contents _ _ => leaves contents
  | fill parts => leavesAll parts
  | indent contents => leaves contents
  | align _ contents => leaves contents
  | line _ _ _ => []
  | ifBreak broken flat => leaves broken ++ leaves flat
  | lineSuffix contents => leaves contents
  | lineSuffixBoundary => []
  | breakParent => []
  | trim => []
  | cursor => []

/-- The text of several documents, one after the other. -/
def leavesAll : List Doc → List Char
  | [] => []
  | doc :: rest => leaves doc ++ leavesAll rest

end

mutual

/-- Whether a document makes no choice between alternatives and has no text in its
margins. Only if `deferring` may it keep something back to the end of a line. -/
def hasNoChoice (deferring : Bool) : Doc → Bool
  | text _ => true
  | concat parts => allHaveNoChoice deferring parts
  | group contents _ none => hasNoChoice deferring contents
  | group _ _ (some _) => false
  | fill parts => allHaveNoChoice deferring parts
  | indent contents => hasNoChoice deferring contents
  | align alignment contents => !alignment.isText && hasNoChoice deferring contents
  | line _ _ _ => true
  | ifBreak _ _ => false
  | lineSuffix contents => deferring && hasNoChoice deferring contents
  | lineSuffixBoundary => true
  | breakParent => true
  | trim => true
  | cursor => true

/-- Whether all of several documents are noChoice. -/
def allHaveNoChoice (deferring : Bool) : List Doc → Bool
  | [] => true
  | doc :: rest => hasNoChoice deferring doc && allHaveNoChoice deferring rest

end

variable {deferring : Bool}

theorem allHaveNoChoice_iff {docs : List Doc} :
    allHaveNoChoice deferring docs = true ↔ ∀ doc ∈ docs, hasNoChoice deferring doc = true := by
  induction docs with
  | nil => simp [allHaveNoChoice]
  | cons doc rest ih => simp [allHaveNoChoice, ih]

mutual

/-- Marking groups changes neither what a document says nor how it is made. -/
theorem noChoice_propagateBreaks : ∀ doc : Doc, hasNoChoice deferring doc = true →
    hasNoChoice deferring (propagateBreaks doc).1 = true ∧
      leaves (propagateBreaks doc).1 = leaves doc
  | text _, h | line _ _ _, h | lineSuffixBoundary, h | breakParent, h | trim, h | cursor, h => by
    simpa [propagateBreaks] using h
  | concat parts, h => by
    simpa [propagateBreaks, hasNoChoice, leaves] using noChoice_propagateAll parts h
  | fill parts, h => by
    simpa [propagateBreaks, hasNoChoice, leaves] using noChoice_propagateAll parts h
  | group contents _ none, h => by
    simpa [propagateBreaks, hasNoChoice, leaves] using noChoice_propagateBreaks contents h
  | indent contents, h => by
    simpa [propagateBreaks, hasNoChoice, leaves] using noChoice_propagateBreaks contents h
  | align alignment contents, h => by
    simp only [hasNoChoice, Bool.and_eq_true] at h
    simpa [propagateBreaks, hasNoChoice, leaves, h.1] using noChoice_propagateBreaks contents h.2
  | lineSuffix contents, h => by
    simp only [hasNoChoice, Bool.and_eq_true] at h
    simpa [propagateBreaks, hasNoChoice, leaves, h.1] using noChoice_propagateBreaks contents h.2
  | group _ _ (some _), h | ifBreak _ _, h => by simp [hasNoChoice] at h

theorem noChoice_propagateAll : ∀ docs : List Doc, allHaveNoChoice deferring docs = true →
    allHaveNoChoice deferring (propagateAll docs).1 = true ∧
      leavesAll (propagateAll docs).1 = leavesAll docs
  | [], h => ⟨h, rfl⟩
  | doc :: rest, h => by
    simp only [allHaveNoChoice, Bool.and_eq_true] at h
    obtain ⟨hdoc, hleaves⟩ := noChoice_propagateBreaks doc h.1
    obtain ⟨hrest, hall⟩ := noChoice_propagateAll rest h.2
    simp [propagateAll, allHaveNoChoice, leavesAll, hdoc, hleaves, hrest, hall]

end

/-! ## Blank margins -/

/-- A margin that is made of blanks, and stays so when it grows by more of them. -/
structure Margin.Blank (margin : Margin) : Prop where
  parts : ∀ part ∈ margin.parts, ∀ content, part ≠ .text content
  value : ∀ c ∈ margin.value, isSpace c = true

/-- An indentation whose margins are all blank. -/
structure Indentation.Blank (indentation : Indentation) : Prop where
  margin : indentation.margin.Blank
  roots : ∀ margin ∈ indentation.roots, margin.Blank

theorem blank_empty : ({} : Margin).Blank := ⟨by simp, by simp⟩

theorem blank_append_replicate {xs : List Char} (h : ∀ c ∈ xs, isSpace c = true) {blank : Char}
    (hblank : isSpace blank = true) (count : Nat) :
    ∀ c ∈ xs ++ List.replicate count blank, isSpace c = true := by
  refine List.forall_mem_append.2 ⟨h, ?_⟩
  intro c hc
  rw [List.eq_of_mem_replicate hc]
  exact hblank

theorem blank_add (options : LayoutOptions) {writer : IndentWriter} {part : IndentPart}
    (hpart : ∀ content, part ≠ .text content) (hwriter : ∀ c ∈ writer.value, isSpace c = true) :
    ∀ c ∈ (writer.add options part).value, isSpace c = true := by
  cases part with
  | text content => exact absurd rfl (hpart content)
  | columns count => exact hwriter
  | level =>
    simp only [IndentWriter.add, IndentWriter.flush]
    cases options.useTabs
    · exact blank_append_replicate (blank_append_replicate hwriter rfl _) rfl _
    · exact blank_append_replicate (blank_append_replicate hwriter rfl _) rfl _

theorem blank_foldl (options : LayoutOptions) {parts : List IndentPart} {writer : IndentWriter}
    (hparts : ∀ part ∈ parts, ∀ content, part ≠ .text content)
    (hwriter : ∀ c ∈ writer.value, isSpace c = true) :
    ∀ c ∈ (parts.foldl (IndentWriter.add options) writer).value, isSpace c = true := by
  induction parts generalizing writer with
  | nil => exact hwriter
  | cons part rest ih =>
    obtain ⟨hpart, hrest⟩ := List.forall_mem_cons.1 hparts
    exact ih hrest (blank_add options hpart hwriter)

theorem blank_ofParts (options : LayoutOptions) {parts : List IndentPart}
    (h : ∀ part ∈ parts, ∀ content, part ≠ .text content) : (Margin.ofParts options parts).Blank :=
  ⟨h, blank_append_replicate (blank_foldl options h (by simp)) rfl _⟩

namespace Indentation.Blank

variable {options : LayoutOptions} {indentation : Indentation}

theorem push (h : indentation.Blank) {part : IndentPart} (hpart : ∀ content, part ≠ .text content) :
    (indentation.push options part).Blank := by
  refine ⟨blank_ofParts options ?_, h.roots⟩
  exact List.forall_mem_append.2 ⟨h.margin.parts, by simpa using hpart⟩

theorem align (h : indentation.Blank) {alignment : Alignment}
    (halignment : alignment.isText = false) : (indentation.align options alignment).Blank := by
  cases alignment with
  | text content => cases halignment
  | width columns =>
    simp only [Indentation.align]
    split
    · exact h
    · exact h.push (by simp)
  | dedent =>
    refine ⟨blank_ofParts options ?_, h.roots⟩
    intro part hpart
    exact h.margin.parts part (List.dropLast_subset _ hpart)
  | dedentToRoot =>
    obtain ⟨margin, roots⟩ := indentation
    cases roots with
    | nil => exact ⟨blank_empty, by simp [Indentation.align, Indentation.root]⟩
    | cons first rest =>
      obtain ⟨hfirst, hrest⟩ := List.forall_mem_cons.1 h.roots
      exact ⟨hfirst, hrest⟩
  | markRoot => exact ⟨h.margin, List.forall_mem_cons.2 ⟨h.margin, h.roots⟩⟩

theorem root (h : indentation.Blank) : (indentation.roots.headD {}).Blank := by
  obtain ⟨margin, roots⟩ := indentation
  cases roots with
  | nil => exact blank_empty
  | cons first rest => exact h.roots first (List.mem_cons_self ..)

end Indentation.Blank

/-! ## One text -/

/-- The text that commands are still to write. -/
def commandLeaves (commands : List Command) : List Char :=
  commands.flatMap fun command => command.doc.leaves

@[simp] theorem commandLeaves_nil : commandLeaves [] = [] := rfl

@[simp] theorem commandLeaves_cons (command : Command) (rest : List Command) :
    commandLeaves (command :: rest) = command.doc.leaves ++ commandLeaves rest := rfl

@[simp] theorem commandLeaves_append (xs ys : List Command) :
    commandLeaves (xs ++ ys) = commandLeaves xs ++ commandLeaves ys :=
  List.flatMap_append

@[simp] theorem commandLeaves_all (indentation : Indentation) (flow : Flow) (docs : List Doc) :
    commandLeaves (Command.all indentation flow docs) = leavesAll docs := by
  induction docs with
  | nil => rfl
  | cons doc rest ih =>
    rw [leavesAll, ← ih]
    rfl

theorem Command.all_cons (indentation : Indentation) (flow : Flow) (doc : Doc) (docs : List Doc) :
    Command.all indentation flow (doc :: docs)
      = ⟨indentation, flow, doc⟩ :: Command.all indentation flow docs := rfl

/-- A command that is noChoice, with blank margins. -/
structure Command.NoChoice (deferring : Bool) (command : Command) : Prop where
  doc : command.doc.hasNoChoice deferring = true
  indentation : command.indentation.Blank

/-- Two texts that have the same characters, and in the same order unless
something may be kept back. -/
def SameText (deferring : Bool) (xs ys : List Char) : Prop :=
  if deferring then xs.Perm ys else xs = ys

namespace SameText

theorem refl (xs : List Char) : SameText deferring xs xs := by
  cases deferring
  · exact rfl
  · exact List.Perm.refl xs

theorem trans {xs ys zs : List Char} (h : SameText deferring xs ys)
    (h' : SameText deferring ys zs) : SameText deferring xs zs := by
  cases deferring
  · exact Eq.trans h h'
  · exact List.Perm.trans h h'

end SameText

namespace Machine

/-- What has been written, is to be written and is kept back, as far as it can be
seen. -/
def content (machine : Machine) : List Char :=
  visible machine.out.reverse ++ visible (commandLeaves machine.commands)
    ++ visible (commandLeaves machine.suffixes.reverse)

/-- A machine that has only noChoice commands before it. -/
structure NoChoice (deferring : Bool) (machine : Machine) : Prop where
  commands : ∀ command ∈ machine.commands, command.NoChoice deferring
  suffixes : ∀ command ∈ machine.suffixes, command.NoChoice deferring
  order : deferring = false → machine.suffixes = []

/-- A machine that has come to be from another one without losing anything. -/
structure Conserves (deferring : Bool) (given : List Char) (machine next : Machine) : Prop where
  noChoice : next.NoChoice deferring
  content : SameText deferring next.content
    (visible machine.out.reverse ++ visible given ++ visible (commandLeaves machine.commands)
      ++ visible (commandLeaves machine.suffixes.reverse))

variable {options : LayoutOptions} {machine next : Machine}

theorem NoChoice.withRemeasure (hm : machine.NoChoice deferring) (remeasure : Bool) :
    ({ machine with remeasure := remeasure } : Machine).NoChoice deferring :=
  ⟨hm.commands, hm.suffixes, hm.order⟩

theorem NoChoice.conserves_push (hm : machine.NoChoice deferring) (pushed : List Command)
    (h : ∀ command ∈ pushed, command.NoChoice deferring) :
    Conserves deferring (commandLeaves pushed) machine (machine.push pushed) := by
  refine ⟨⟨List.forall_mem_append.2 ⟨h, hm.commands⟩, hm.suffixes, hm.order⟩, ?_⟩
  simpa [Machine.content, push, out] using SameText.refl _

/-- One document in the place of another one. -/
theorem NoChoice.conserves_instead (hm : machine.NoChoice deferring) {indentation : Indentation}
    (hi : indentation.Blank) (flow : Flow) (contents : Doc)
    (hcontents : contents.hasNoChoice deferring = true) :
    Conserves deferring contents.leaves machine (machine.push [⟨indentation, flow, contents⟩]) := by
  have h := hm.conserves_push [⟨indentation, flow, contents⟩]
    (by simpa using ⟨hcontents, hi⟩)
  simpa using h

/-- Writing shows what is written and leaves everything else as it is. -/
theorem NoChoice.conserves_out (hm : machine.NoChoice deferring) {given : List Char}
    (hcommands : next.commands = machine.commands) (hsuffixes : next.suffixes = machine.suffixes)
    (hout : visible next.out.reverse = visible machine.out.reverse ++ visible given) :
    Conserves deferring given machine next := by
  refine ⟨⟨hcommands ▸ hm.commands, hsuffixes ▸ hm.suffixes, hsuffixes ▸ hm.order⟩, ?_⟩
  rw [content, hcommands, hsuffixes, hout]
  exact SameText.refl _

/-- Removing blanks is not seen. -/
theorem visible_trim (machine : Machine) :
    visible machine.trim.out.reverse = visible machine.out.reverse := by
  simp [out, trim, visible_dropWhile]

theorem visible_startLine {margin : Margin} (h : margin.Blank) (machine : Machine) :
    visible (machine.startLine margin).out.reverse = visible machine.out.reverse := by
  have hmargin : visible margin.value = [] := visible_eq_nil fun c hc => Or.inl (h.value c hc)
  simp [out, startLine, hmargin]

theorem Conserves.trans {given : List Char} {mid : Machine}
    (h : Conserves deferring given machine mid) (h' : Conserves deferring [] mid next) :
    Conserves deferring given machine next := by
  refine ⟨h'.noChoice, h'.content.trans ?_⟩
  simpa [Machine.content] using h.content

/-- What was kept back comes before everything else once it is taken up. -/
theorem NoChoice.conserves_release (hm : machine.NoChoice deferring) :
    Conserves deferring [] machine machine.release := by
  have hfree : ∀ command ∈ machine.suffixes.reverse, command.NoChoice deferring := by
    intro command hmem
    exact hm.suffixes command (List.mem_reverse.1 hmem)
  refine ⟨⟨List.forall_mem_append.2 ⟨hfree, hm.commands⟩, by simp [release],
    by simp [release]⟩, ?_⟩
  cases deferring with
  | false => simp [SameText, Machine.content, release, out, hm.order rfl]
  | true =>
    simp only [SameText, if_true, Machine.content, release, out, commandLeaves_append,
      visible_append, List.append_assoc, List.reverse_nil, commandLeaves_nil, visible_nil,
      List.append_nil]
    exact List.Perm.append_left _ List.perm_append_comm

theorem NoChoice.conserves_breakLine (hm : machine.NoChoice deferring) {indentation : Indentation}
    (hi : indentation.Blank) (flow : Flow) (hard soft literal : Bool) :
    Conserves deferring [] machine (machine.breakLine indentation flow hard soft literal) := by
  unfold breakLine
  split
  · -- the line waits until what was kept back has been printed
    have hpush := hm.conserves_instead hi flow (line hard soft literal) rfl
    exact hpush.trans hpush.noChoice.conserves_release
  · split
    · refine hm.conserves_out rfl rfl ?_
      rw [visible_startLine hi.root]
      simp
    · refine hm.conserves_out rfl rfl ?_
      rw [visible_startLine hi.margin, visible_trim]
      simp

theorem NoChoice.conserves_printLine (hm : machine.NoChoice deferring) {indentation : Indentation}
    (hi : indentation.Blank) (flow : Flow) (hard soft literal : Bool) :
    Conserves deferring [] machine (machine.printLine indentation flow hard soft literal) := by
  unfold printLine
  split
  · split
    · exact hm.conserves_out rfl rfl (by simp)
    · refine hm.conserves_out rfl rfl ?_
      simp [write, out, isSpace]
  · have h := (hm.withRemeasure true).conserves_breakLine hi .flat true soft literal
    exact ⟨h.noChoice, h.content⟩
  · exact hm.conserves_breakLine hi .broken hard soft literal

/-- A fill takes itself apart into pieces that have its text. -/
theorem exists_printFill (options : LayoutOptions) (machine : Machine) {indentation : Indentation}
    (hi : indentation.Blank) (flow : Flow) {parts : List Doc}
    (h : allHaveNoChoice deferring parts = true) :
    ∃ commands, machine.printFill options indentation flow parts = machine.push commands ∧
      commandLeaves commands = leavesAll parts ∧
      ∀ command ∈ commands, command.NoChoice deferring := by
  have noChoice : ∀ (flow : Flow) (doc : Doc), doc.hasNoChoice deferring = true →
      (⟨indentation, flow, doc⟩ : Command).NoChoice deferring := fun _ _ hdoc => ⟨hdoc, hi⟩
  unfold printFill
  split
  · exact ⟨[], rfl, rfl, by simp⟩
  · simp only [allHaveNoChoice, Bool.and_true] at h
    exact ⟨_, rfl, by simp [leavesAll], by simpa using noChoice _ _ h⟩
  · simp only [allHaveNoChoice, Bool.and_true, Bool.and_eq_true] at h
    exact ⟨_, rfl, by simp [leavesAll], by simpa using ⟨noChoice _ _ h.1, noChoice _ _ h.2⟩⟩
  · next content separator following rest =>
    simp only [allHaveNoChoice, Bool.and_eq_true] at h
    have hrest := noChoice flow (fill (following :: rest))
      (by simpa [hasNoChoice, allHaveNoChoice] using h.2.2)
    refine ⟨_, rfl, by simp [leavesAll, leaves], ?_⟩
    simpa using ⟨noChoice _ _ h.1, noChoice _ _ h.2.1, hrest⟩

/-- Carrying out a command loses nothing of it. -/
theorem NoChoice.conserves_execute (options : LayoutOptions) (hm : machine.NoChoice deferring)
    {command : Command} (hc : command.NoChoice deferring) :
    Conserves deferring command.doc.leaves machine (machine.execute options command) := by
  obtain ⟨indentation, flow, doc⟩ := command
  obtain ⟨hdoc, hi⟩ := hc
  simp only at hdoc hi
  cases doc with
  | text content => exact hm.conserves_out rfl rfl (by simp [execute, write, out, leaves])
  | concat parts =>
    have hpush := hm.conserves_push (Command.all indentation flow parts) (by
      intro command hmem
      obtain ⟨part, hpart, rfl⟩ := List.mem_map.1 hmem
      exact ⟨allHaveNoChoice_iff.1 hdoc part hpart, hi⟩)
    rwa [commandLeaves_all] at hpush
  | group contents broken states =>
    cases states with
    | some states => simp [hasNoChoice] at hdoc
    | none =>
      obtain ⟨flow', remeasure, h⟩ := printGroup_eq options machine indentation flow contents broken
      have hgroup := (hm.withRemeasure remeasure).conserves_instead hi flow' contents hdoc
      simp only [execute, h]
      exact ⟨hgroup.noChoice, hgroup.content⟩
  | fill parts =>
    obtain ⟨commands, h, hleaves, hfree⟩ := exists_printFill options machine hi flow hdoc
    simp only [execute, h, leaves, ← hleaves]
    exact hm.conserves_push commands hfree
  | indent contents =>
    have hi' : (indentation.indent options).Blank := hi.push (by simp)
    exact hm.conserves_instead hi' flow contents hdoc
  | align alignment contents =>
    simp only [hasNoChoice, Bool.and_eq_true, Bool.not_eq_true'] at hdoc
    exact hm.conserves_instead (hi.align hdoc.1) flow contents hdoc.2
  | line hard soft literal => exact hm.conserves_printLine hi flow hard soft literal
  | ifBreak broken flat => simp [hasNoChoice] at hdoc
  | lineSuffix contents =>
    simp only [hasNoChoice, Bool.and_eq_true] at hdoc
    obtain ⟨rfl, hcontents⟩ := hdoc
    refine ⟨⟨hm.commands, List.forall_mem_cons.2 ⟨⟨hcontents, hi⟩, hm.suffixes⟩, by simp⟩, ?_⟩
    simp only [SameText, if_true, Machine.content, execute, out, leaves, List.reverse_cons,
      commandLeaves_append, commandLeaves_cons, commandLeaves_nil, List.append_nil, visible_append,
      List.append_assoc]
    -- the contents go behind everything else
    refine List.Perm.append_left _ ?_
    rw [← List.append_assoc]
    exact List.perm_append_comm
  | lineSuffixBoundary =>
    simp only [execute]
    split
    · exact hm.conserves_out rfl rfl (by simp [leaves])
    · exact hm.conserves_instead hi flow (line true false false) rfl
  | breakParent => exact hm.conserves_out rfl rfl (by simp [execute, leaves])
  | trim =>
    refine hm.conserves_out rfl rfl ?_
    simp only [execute, visible_trim]
    simp [leaves]
  | cursor =>
    simp only [execute, mark]
    split
    · exact hm.conserves_out rfl rfl (by simp [leaves, out])
    · exact hm.conserves_out rfl rfl (by simp [leaves])

/-- A step loses nothing. -/
theorem NoChoice.conserves_step (hm : machine.NoChoice deferring)
    (hstep : machine.step options = some next) :
    next.NoChoice deferring ∧ SameText deferring next.content machine.content := by
  unfold step at hstep
  split at hstep
  · cases hstep
  · next command rest hcommands =>
    obtain ⟨hcommand, hrest⟩ := List.forall_mem_cons.1 (hcommands ▸ hm.commands)
    have hbefore : ({ machine with commands := rest } : Machine).NoChoice deferring :=
      ⟨hrest, hm.suffixes, hm.order⟩
    have hexecute := hbefore.conserves_execute options hcommand
    have hsettle :
        Conserves deferring command.doc.leaves { machine with commands := rest } next := by
      rw [← Option.some.inj hstep]
      unfold settle
      split
      · exact hexecute.trans hexecute.noChoice.conserves_release
      · exact hexecute
    refine ⟨hsettle.noChoice, ?_⟩
    simpa [Machine.content, hcommands, out] using hsettle.content

/-- Nothing is kept back any more when no command is left. -/
theorem suffixes_of_step (hstep : machine.step options = some next) (h : next.commands = []) :
    next.suffixes = [] := by
  unfold step at hstep
  split at hstep
  · cases hstep
  · rw [← Option.some.inj hstep] at h ⊢
    unfold settle at h ⊢
    split
    · rfl
    · next hne =>
      rw [if_neg hne] at h
      simp [h] at hne

/-- Nor does a whole run, and in the end everything has been written. -/
theorem NoChoice.conserves_run (options : LayoutOptions) (machine : Machine)
    (hm : machine.NoChoice deferring) (hempty : machine.commands = [] → machine.suffixes = []) :
    SameText deferring (visible (machine.run options).out.reverse) machine.content := by
  rw [run]
  split
  · next hstep =>
    have hcommands : machine.commands = [] := by
      unfold step at hstep
      split at hstep
      · assumption
      · cases hstep
    simpa [Machine.content, hcommands, hempty hcommands] using SameText.refl _
  · next next hstep =>
    obtain ⟨hnext, hcontent⟩ := hm.conserves_step hstep
    exact (conserves_run options next hnext (suffixes_of_step hstep)).trans hcontent
termination_by machine.cost
decreasing_by exact cost_step ‹_›

end Machine

/-- What is printed has the characters of the document, in their order unless
something is kept back. -/
theorem render_sameText (options : LayoutOptions) {doc : Doc}
    (h : doc.hasNoChoice deferring = true) :
    SameText deferring (visible (doc.render options).text.toList) (visible doc.leaves) := by
  obtain ⟨hfree, hleaves⟩ := noChoice_propagateBreaks doc h
  have hm : (initial doc).NoChoice deferring := by
    refine ⟨?_, by simp [initial], fun _ => rfl⟩
    simpa [initial] using ⟨hfree, blank_empty, by simp⟩
  have hrun := hm.conserves_run options (initial doc) (by simp [initial])
  simpa [render, Machine.content, initial, Machine.out, hleaves] using hrun

/-! ## Suffixes, line by line -/

/-- A part of a document made of lines: text, text that is kept back, or the end of
a line. -/
inductive Part where
  | text (content : String)
  | suffix (content : String)
  | newline
  deriving DecidableEq

namespace Part

/-- The document of a part. -/
def doc : Part → Doc
  | text content => .text content
  | suffix content => lineSuffix (.text content)
  | newline => hardline

def isNewline : Part → Bool
  | newline => true
  | _ => false

/-- What is printed at once. -/
def shown : Part → List Char
  | text content => content.toList
  | _ => []

/-- What is kept back. -/
def kept : Part → List Char
  | suffix content => content.toList
  | _ => []

/-- A line is its text, and then what was kept back, in the order in which it
came. -/
def lineText (line : List Part) : List Char := line.flatMap shown ++ line.flatMap kept

/-- A text without the blanks at its end. -/
def trimEnd (cs : List Char) : List Char := (cs.reverse.dropWhile isSpace).reverse

/-- Lines one after the other; where a line ends it has no blanks. -/
def joinLines : List (List Char) → List Char
  | [] => []
  | [last] => last
  | first :: next :: rest => trimEnd first ++ '\n' :: joinLines (next :: rest)

/-- The parts as they are printed. -/
def layOut (parts : List Part) : List Char := joinLines ((parts.splitOnP isNewline).map lineText)

/-- The commands that wait for the end of a line. -/
def waiting (line : List Part) : List Command :=
  line.filterMap fun
    | suffix content => some ⟨{}, .broken, .text content⟩
    | _ => none

theorem propagateAll_doc (parts : List Part) :
    (propagateAll (parts.map doc)).1 = parts.map doc := by
  induction parts with
  | nil => rfl
  | cons part rest ih =>
    cases part with
    | text content => simp [doc, propagateAll, propagateBreaks, ih]
    | suffix content => simp [doc, propagateAll, propagateBreaks, ih]
    | newline => simp [doc, hardline, propagateAll, propagateBreaks, ih]

theorem layOut_line {line : List Part} (hline : ∀ part ∈ line, part.isNewline = false) :
    layOut line = lineText line := by
  rw [layOut, List.splitOnP_eq_singleton hline]
  rfl

theorem layOut_newline {line : List Part} (hline : ∀ part ∈ line, part.isNewline = false)
    (rest : List Part) :
    layOut (line ++ newline :: rest) = trimEnd (lineText line) ++ '\n' :: layOut rest := by
  rw [layOut, List.splitOnP_append_cons_of_forall_mem hline newline rfl, layOut]
  cases hrest : rest.splitOnP isNewline with
  | nil => exact absurd hrest (List.splitOnP_ne_nil _ _)
  | cons next more => rfl

/-- Only the line at the end can lose blanks. -/
theorem dropWhile_line {before : List Char} (hbefore : before.dropWhile isSpace = before)
    (line : List Part) :
    ((line.flatMap kept).reverse ++ ((line.flatMap shown).reverse ++ before)).dropWhile isSpace
      = (trimEnd (lineText line)).reverse ++ before := by
  rw [← List.append_assoc, ← List.reverse_append, ← lineText, List.dropWhile_append, trimEnd,
    List.reverse_reverse, hbefore]
  split
  · next hempty => simp [List.isEmpty_iff.1 hempty]
  · rfl

end Part

/-- However else a machine stands, from the given output, commands and suffixes it
comes to the final output. All of the output can lose its blanks. -/
def Ends (options : LayoutOptions) (out : List Char) (commands suffixes : List Command)
    (final : List Char) : Prop :=
  ∀ machine : Machine, machine.tail = out → machine.settled = [] → machine.commands = commands →
    machine.suffixes = suffixes → (machine.settle.run options).out = final

namespace Ends

variable {options : LayoutOptions} {out final : List Char} {commands suffixes : List Command}
  {indentation : Indentation} {flow : Flow}

theorem nil (out : List Char) : Ends options out [] [] out := by
  rintro machine rfl hsettled hcommands hsuffixes
  rw [Machine.settle_of_suffixes hsuffixes, Machine.run]
  split
  · simp [Machine.out, hsettled]
  · next hstep => simp [Machine.step, hcommands] at hstep

/-- One step, for a machine that has a command. -/
theorem of_execute {command : Command} {out' : List Char} {commands' suffixes' : List Command}
    (hexecute : ∀ machine : Machine, machine.tail = out → machine.settled = [] →
      machine.commands = commands → machine.suffixes = suffixes →
      let next := machine.execute options command
      next.tail = out' ∧ next.settled = [] ∧ next.commands = commands' ∧ next.suffixes = suffixes')
    (h : Ends options out' commands' suffixes' final) :
    Ends options out (command :: commands) suffixes final := by
  intro machine hout hsettled hcommands hsuffixes
  have hsettle : machine.settle = machine := by simp [Machine.settle, hcommands]
  have hstep : machine.step options
      = some (({ machine with commands := commands }.execute options command).settle) := by
    simp [Machine.step, hcommands]
  obtain ⟨htail, hs, hc, hx⟩ :=
    hexecute { machine with commands := commands } hout hsettled rfl hsuffixes
  rw [hsettle, Machine.run_of_step hstep]
  exact h _ htail hs hc hx

theorem text {content : String}
    (h : Ends options (content.toList.reverse ++ out) commands suffixes final) :
    Ends options out (⟨indentation, flow, .text content⟩ :: commands) suffixes final := by
  refine of_execute ?_ h
  rintro machine rfl hsettled rfl rfl
  exact ⟨rfl, hsettled, rfl, rfl⟩

theorem suffix {contents : Doc}
    (h : Ends options out commands (⟨indentation, flow, contents⟩ :: suffixes) final) :
    Ends options out (⟨indentation, flow, lineSuffix contents⟩ :: commands) suffixes final := by
  refine of_execute ?_ h
  rintro machine rfl hsettled rfl rfl
  exact ⟨rfl, hsettled, rfl, rfl⟩

/-- When nothing else is left, what was kept back is taken up. -/
theorem release (h : Ends options out suffixes.reverse [] final) :
    Ends options out [] suffixes final := by
  intro machine hout hsettled hcommands hsuffixes
  have hsettle : machine.settle = machine.release := by simp [Machine.settle, hcommands]
  have hrelease : machine.release.settle = machine.release := Machine.settle_of_suffixes rfl
  rw [hsettle, ← hrelease]
  exact h machine.release hout hsettled (by simp [Machine.release, hcommands, hsuffixes]) rfl

/-- A line that is taken lets what was kept back go first. -/
theorem line_release {hard soft literal : Bool}
    (h : Ends options out
      (suffixes.reverse ++ ⟨indentation, .broken, line hard soft literal⟩ :: commands) [] final) :
    Ends options out (⟨indentation, .broken, line hard soft literal⟩ :: commands) suffixes
      final := by
  cases hsuffixes : suffixes with
  | nil => simpa [hsuffixes] using h
  | cons first rest =>
    refine of_execute ?_ (hsuffixes ▸ h)
    rintro machine rfl hsettled rfl hfirst
    simp [Machine.execute, Machine.printLine, Machine.breakLine, Machine.push, Machine.release,
      hfirst, hsettled]

theorem line {hard soft : Bool}
    (h : Ends options (indentation.margin.value.reverse ++ '\n' :: out.dropWhile isSpace) commands
      [] final) :
    Ends options out (⟨indentation, .broken, line hard soft false⟩ :: commands) [] final := by
  refine of_execute ?_ h
  rintro machine rfl hsettled rfl hsuffixes
  simp [Machine.execute, Machine.printLine, Machine.breakLine, Machine.trim, Machine.startLine,
    hsuffixes, hsettled]

theorem breakParent (h : Ends options out commands suffixes final) :
    Ends options out (⟨indentation, flow, .breakParent⟩ :: commands) suffixes final := by
  refine of_execute ?_ h
  rintro machine rfl hsettled rfl rfl
  exact ⟨rfl, hsettled, rfl, rfl⟩

theorem concat {parts : List Doc}
    (h : Ends options out (Command.all indentation flow parts ++ commands) suffixes final) :
    Ends options out (⟨indentation, flow, .concat parts⟩ :: commands) suffixes final := by
  refine of_execute ?_ h
  rintro machine rfl hsettled rfl rfl
  exact ⟨rfl, hsettled, rfl, rfl⟩

/-- What was kept back is printed in the order in which it came. -/
theorem waiting {line : List Part}
    (h : Ends options ((line.flatMap Part.kept).reverse ++ out) commands [] final) :
    Ends options out (Part.waiting line ++ commands) [] final := by
  induction line generalizing out with
  | nil => exact h
  | cons part rest ih =>
    cases part with
    | suffix content =>
      apply text
      apply ih
      simpa [Part.kept] using h
    | text content => exact ih h
    | newline => exact ih h

/-- Parts behind those of a line that has been begun. -/
theorem parts (before : List Char) (hbefore : before.dropWhile isSpace = before)
    (line parts : List Part) (hline : ∀ part ∈ line, part.isNewline = false) :
    Ends options ((line.flatMap Part.shown).reverse ++ before)
      (Command.all {} .broken (parts.map Part.doc)) (Part.waiting line).reverse
      ((Part.layOut (line ++ parts)).reverse ++ before) := by
  induction parts generalizing before line with
  | nil =>
    apply release
    rw [List.reverse_reverse, ← List.append_nil (Part.waiting line)]
    apply waiting
    rw [List.append_nil, Part.layOut_line hline, Part.lineText]
    simpa using nil _
  | cons part rest ih =>
    rw [List.map_cons, Command.all_cons]
    cases part with
    | text content =>
      have hrest := ih before hbefore (line ++ [.text content])
        (List.forall_mem_append.2 ⟨hline, by simp [Part.isNewline]⟩)
      apply text
      simpa [Part.shown, Part.waiting] using hrest
    | suffix content =>
      have hrest := ih before hbefore (line ++ [.suffix content])
        (List.forall_mem_append.2 ⟨hline, by simp [Part.isNewline]⟩)
      apply suffix
      simpa [Part.shown, Part.waiting] using hrest
    | newline =>
      have hrest := ih ('\n' :: ((Part.trimEnd (Part.lineText line)).reverse ++ before)) rfl []
        (by simp)
      apply concat
      apply line_release
      rw [List.reverse_reverse]
      apply waiting
      apply Ends.line
      apply breakParent
      rw [Part.dropWhile_line hbefore, Part.layOut_newline hline]
      simpa [Part.waiting] using hrest

end Ends

/-- Whatever the options, the suffixes of a line come after its text. -/
theorem render_parts (options : LayoutOptions) (parts : List Part) :
    ((concat (parts.map Part.doc)).render options).text = String.ofList (Part.layOut parts) := by
  have hends : Ends options [] [⟨{}, .broken, concat (parts.map Part.doc)⟩] []
      (Part.layOut parts).reverse := by
    apply Ends.concat
    simpa [Part.waiting] using Ends.parts [] rfl [] parts (by simp)
  have hrun := hends (initial (concat (parts.map Part.doc))) rfl rfl
    (by simp [initial, propagateBreaks, Part.propagateAll_doc]) rfl
  rw [Machine.settle_of_suffixes rfl] at hrun
  rw [render, hrun, List.reverse_reverse]

/-- Nothing is lost, whatever the options: what is printed has the characters of
the document; they are in order where nothing is kept back; and in lines of
text, what is kept back comes at the end of its line. -/
theorem render_conserves (options : LayoutOptions) :
    (∀ doc : Doc, doc.hasNoChoice true = true →
      (visible (doc.render options).text.toList).Perm (visible doc.leaves)) ∧
    (∀ doc : Doc, doc.hasNoChoice false = true →
      visible (doc.render options).text.toList = visible doc.leaves) ∧
    ∀ parts : List Part,
      ((concat (parts.map Part.doc)).render options).text = String.ofList (Part.layOut parts) := by
  refine ⟨?_, ?_, render_parts options⟩
  · intro doc h
    exact render_sameText options h
  · intro doc h
    exact render_sameText options h

/-- A suffix within a suffix, and two suffixes of one line with a blank before its
end. -/
theorem render_conserves_suffixes :
    let nested : Doc := concat [text "a", lineSuffix (concat [text "b", lineSuffix (text "c")]),
      text "d", hardline, text "e"]
    let parts : List Part :=
      [.suffix " % x", .text "a", .suffix "y ", .text "b", .newline, .text "c"]
    nested.hasNoChoice true = true ∧
      (visible (nested.render {}).text.toList).Perm ['a', 'b', 'c', 'd', 'e'] ∧
      ((concat (parts.map Part.doc)).render {}).text = "ab % xy\nc" := by
  intro nested parts
  refine ⟨rfl, (render_conserves {}).1 nested rfl, ?_⟩
  rw [(render_conserves {}).2.2 parts]
  decide

end Doc

end LatexFormatter
