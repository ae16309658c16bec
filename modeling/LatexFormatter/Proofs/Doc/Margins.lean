import LatexFormatter.Proofs.Doc.Column
import Mathlib.Data.List.DropRight
import Mathlib.Tactic.Zify

/-
  Margins and the changes that lead to them. A margin is written by going through
  its changes, with the columns that are still due kept back until it is known
  whether anything follows them. What comes out can be read off the changes without
  that (`ofParts_eq_spelled`): each is written in one way where another one follows,
  tabs or spaces, and the columns at the end are spaces.

  Of every indentation that documents can ask for, in any order, the margin is that
  of its changes; taking back the last change restores what there was before, and
  going back to a mark restores the indentation that was marked
  (`indentation_follows_changes`).
-/

namespace LatexFormatter.Doc

/-! ## A margin read off its changes -/

namespace IndentPart

/-- Whether the change is one by columns. -/
def isColumns : IndentPart → Bool
  | columns _ => true
  | _ => false

/-- The columns that a change by columns asks for. -/
def count : IndentPart → Nat
  | columns count => count
  | _ => 0

/-- What a change is written as where another one follows it. -/
def written (options : LayoutOptions) : IndentPart → List Char
  | level => if options.useTabs then ['\t'] else List.replicate options.tabWidth ' '
  | text content => content
  | columns count => if options.useTabs then ['\t'] else List.replicate count ' '

/-- The columns that are counted for a change where another one follows it. -/
def width (options : LayoutOptions) : IndentPart → Nat
  | level => options.tabWidth
  | text content => content.length
  | columns count => if options.useTabs then options.tabWidth else count

end IndentPart

/-- The columns that a sequence of changes ends with. -/
def endColumns (parts : List IndentPart) : Nat :=
  ((parts.rtakeWhile IndentPart.isColumns).map IndentPart.count).sum

/-- The margin of a sequence of changes, read off them: the columns at its end are
spaces, everything before is written as something that more follows. -/
def Margin.spelled (options : LayoutOptions) (parts : List IndentPart) : Margin where
  parts := parts
  value := (parts.rdropWhile IndentPart.isColumns).flatMap (IndentPart.written options)
    ++ List.replicate (endColumns parts) ' '
  length := ((parts.rdropWhile IndentPart.isColumns).map (IndentPart.width options)).sum
    + endColumns parts

section

variable {options : LayoutOptions} {parts : List IndentPart}

/-- What columns amount to where more follows them: a tab for each change if tabs
are used, and otherwise spaces. -/
theorem flatMap_written_columns (h : ∀ part ∈ parts, part.isColumns = true) :
    parts.flatMap (IndentPart.written options)
        = (if options.useTabs then List.replicate parts.length '\t'
          else List.replicate (parts.map IndentPart.count).sum ' ') ∧
      (parts.map (IndentPart.width options)).sum
        = (if options.useTabs then options.tabWidth * parts.length
          else (parts.map IndentPart.count).sum) := by
  induction parts with
  | nil => simp
  | cons part rest ih =>
    obtain ⟨hpart, hrest⟩ := List.forall_mem_cons.1 h
    obtain ⟨hvalue, hlength⟩ := ih hrest
    cases part with
    | level => cases hpart
    | text content => cases hpart
    | columns count =>
      simp only [List.flatMap_cons, List.map_cons, List.sum_cons, hvalue, hlength]
      cases htabs : options.useTabs with
      | true =>
        simp only [IndentPart.written, IndentPart.width, htabs, if_true, List.length_cons]
        refine ⟨rfl, ?_⟩
        rw [Nat.mul_succ, Nat.add_comm]
      | false => simp [IndentPart.written, IndentPart.width, IndentPart.count, htabs]

/-- A change that is not one by columns is written behind the columns that were
due, and leaves none due. -/
theorem IndentWriter.add_eq (writer : IndentWriter) {part : IndentPart}
    (h : part.isColumns = false) :
    (writer.add options part).value = (writer.flush options).value ++ part.written options ∧
      (writer.add options part).length = (writer.flush options).length + part.width options ∧
      (writer.add options part).dueTabs = 0 ∧ (writer.add options part).dueSpaces = 0 := by
  have hdue : (writer.flush options).dueTabs = 0 ∧ (writer.flush options).dueSpaces = 0 := by
    unfold flush
    split <;> exact ⟨rfl, rfl⟩
  cases part with
  | columns count => cases h
  | text content => exact ⟨rfl, rfl, hdue⟩
  | level =>
    simp only [add, IndentPart.written, IndentPart.width]
    split
    · exact ⟨rfl, by simp [addTabs], hdue⟩
    · exact ⟨rfl, rfl, hdue⟩

/-- The writer has written all changes but the columns at the end, which are due. -/
structure IndentWriter.Wrote (options : LayoutOptions) (parts : List IndentPart)
    (writer : IndentWriter) : Prop where
  value : writer.value
    = (parts.rdropWhile IndentPart.isColumns).flatMap (IndentPart.written options)
  length : writer.length
    = ((parts.rdropWhile IndentPart.isColumns).map (IndentPart.width options)).sum
  dueTabs : writer.dueTabs = (parts.rtakeWhile IndentPart.isColumns).length
  dueSpaces : writer.dueSpaces = endColumns parts

namespace IndentWriter.Wrote

variable {writer : IndentWriter}

/-- Once the columns are written that are due, all changes are. -/
theorem flush (h : writer.Wrote options parts) :
    (writer.flush options).value = parts.flatMap (IndentPart.written options) ∧
      (writer.flush options).length = (parts.map (IndentPart.width options)).sum := by
  have hsplit := List.rdropWhile_append_rtakeWhile (p := IndentPart.isColumns) (l := parts)
  obtain ⟨hvalue, hlength⟩ := @flatMap_written_columns options _
    fun part (hpart : part ∈ parts.rtakeWhile IndentPart.isColumns) => List.mem_rtakeWhile_imp hpart
  have hdueSpaces := h.dueSpaces
  unfold endColumns at hdueSpaces
  constructor
  · calc (writer.flush options).value
        = writer.value ++ (if options.useTabs then List.replicate writer.dueTabs '\t'
            else List.replicate writer.dueSpaces ' ') := by
          unfold IndentWriter.flush; split <;> rfl
      _ = (parts.rdropWhile IndentPart.isColumns).flatMap (IndentPart.written options)
            ++ (parts.rtakeWhile IndentPart.isColumns).flatMap (IndentPart.written options) := by
          rw [h.value, hvalue, h.dueTabs, hdueSpaces]
      _ = parts.flatMap (IndentPart.written options) := by
          rw [← List.flatMap_append, hsplit]
  · calc (writer.flush options).length
        = writer.length + (if options.useTabs then options.tabWidth * writer.dueTabs
            else writer.dueSpaces) := by
          unfold IndentWriter.flush; split <;> rfl
      _ = ((parts.rdropWhile IndentPart.isColumns).map (IndentPart.width options)).sum
            + ((parts.rtakeWhile IndentPart.isColumns).map (IndentPart.width options)).sum := by
          rw [h.length, hlength, h.dueTabs, hdueSpaces]
      _ = (parts.map (IndentPart.width options)).sum := by
          rw [← List.sum_append, ← List.map_append, hsplit]

/-- One more change. Columns are due from then on, anything else is written behind
the columns that were. -/
theorem add (h : writer.Wrote options parts) (part : IndentPart) :
    (writer.add options part).Wrote options (parts ++ [part]) := by
  cases hcolumns : part.isColumns with
  | true =>
    have hdrop := List.rdropWhile_concat_pos IndentPart.isColumns parts part hcolumns
    have htake := List.rtakeWhile_concat_pos IndentPart.isColumns parts part hcolumns
    have hadd : writer.add options part = { writer with
        dueTabs := writer.dueTabs + 1, dueSpaces := writer.dueSpaces + part.count } := by
      cases part with
      | columns count => rfl
      | level => cases hcolumns
      | text content => cases hcolumns
    rw [hadd]
    refine ⟨?_, ?_, ?_, ?_⟩
    · show writer.value = _
      rw [hdrop, h.value]
    · show writer.length = _
      rw [hdrop, h.length]
    · show writer.dueTabs + 1 = _
      rw [htake, h.dueTabs, List.length_append, List.length_singleton]
    · show writer.dueSpaces + part.count = _
      rw [h.dueSpaces, endColumns, endColumns, htake]
      simp
  | false =>
    have hnot : ¬ part.isColumns = true := by simp [hcolumns]
    have hdrop := List.rdropWhile_concat_neg IndentPart.isColumns parts part hnot
    have htake := List.rtakeWhile_concat_neg IndentPart.isColumns parts part hnot
    obtain ⟨hvalue, hlength⟩ := h.flush
    obtain ⟨haddValue, haddLength, haddTabs, haddSpaces⟩ := add_eq writer hcolumns
    refine ⟨?_, ?_, ?_, ?_⟩
    · rw [haddValue, hdrop, hvalue]
      simp
    · rw [haddLength, hdrop, hlength]
      simp
    · rw [haddTabs, htake]
      rfl
    · rw [haddSpaces, endColumns, htake]
      rfl

theorem foldl (h : writer.Wrote options parts) (more : List IndentPart) :
    (more.foldl (IndentWriter.add options) writer).Wrote options (parts ++ more) := by
  induction more generalizing writer parts with
  | nil => simpa using h
  | cons part rest ih =>
    have hrest := ih (h.add part)
    rw [List.append_assoc, List.singleton_append] at hrest
    exact hrest

end IndentWriter.Wrote

/-- Writing the changes one after the other gives what can be read off them. -/
theorem ofParts_eq_spelled (options : LayoutOptions) (parts : List IndentPart) :
    Margin.ofParts options parts = Margin.spelled options parts := by
  have hempty : ({} : IndentWriter).Wrote options [] := ⟨rfl, rfl, rfl, rfl⟩
  have hwrote := hempty.foldl parts
  rw [List.nil_append] at hwrote
  simp only [Margin.ofParts, Margin.spelled, IndentWriter.addSpaces, hwrote.value, hwrote.length,
    hwrote.dueSpaces]

end

/-! ## Indentations that can be asked for -/

/-- A change of indentation that a document asks for: one level more, or an
alignment. -/
inductive Shift where
  | indent
  | align (alignment : Alignment)
  deriving Repr, DecidableEq

namespace Shift

/-- What the change adds to the margin: one level, some columns or some text, or
nothing. -/
def part? : Shift → Option IndentPart
  | indent => some .level
  | align (.width columns) => if columns == 0 then none else some (.columns columns)
  | align (.text content) => if content.isEmpty then none else some (.text content.toList)
  | align .dedent => none
  | align .dedentToRoot => none
  | align .markRoot => none

/-- Whether the change neither marks the margin nor goes back to a mark. -/
def keepsMarks : Shift → Bool
  | align .dedentToRoot => false
  | align .markRoot => false
  | _ => true

end Shift

/-- Every change in the margin is one that was asked for. -/
def Margin.Asked (shifts : List Shift) (margin : Margin) : Prop :=
  ∀ part ∈ margin.parts, ∃ shift ∈ shifts, shift.part? = some part

namespace Indentation

/-- Changes indentation as asked for. -/
def shift (options : LayoutOptions) (indentation : Indentation) : Shift → Indentation
  | .indent => indentation.indent options
  | .align alignment => indentation.align options alignment

/-- Changes indentation several times. -/
def shiftAll (options : LayoutOptions) (indentation : Indentation) (shifts : List Shift) :
    Indentation :=
  shifts.foldl (shift options) indentation

section

variable {options : LayoutOptions} {indentation : Indentation} {shifts : List Shift}

/-- What a change does: it adds something, takes the last thing back, goes back to
a mark, sets one, or does nothing. -/
theorem shift_cases (options : LayoutOptions) (indentation : Indentation) (shift : Shift) :
    (∃ part, shift.part? = some part ∧
      indentation.shift options shift = indentation.push options part) ∨
    (shift = .align .dedent ∧ indentation.shift options shift = indentation.pop options) ∨
    (shift = .align .dedentToRoot ∧ indentation.shift options shift = indentation.root) ∨
    (shift = .align .markRoot ∧ indentation.shift options shift
      = { indentation with roots := indentation.margin :: indentation.roots }) ∨
    (shift.part? = none ∧ indentation.shift options shift = indentation) := by
  cases shift with
  | indent => exact Or.inl ⟨.level, rfl, rfl⟩
  | align alignment =>
    cases alignment with
    | dedent => exact Or.inr (Or.inl ⟨rfl, rfl⟩)
    | dedentToRoot => exact Or.inr (Or.inr (Or.inl ⟨rfl, rfl⟩))
    | markRoot => exact Or.inr (Or.inr (Or.inr (Or.inl ⟨rfl, rfl⟩)))
    | width columns =>
      simp only [shift, align, Shift.part?]
      split
      · exact Or.inr (Or.inr (Or.inr (Or.inr ⟨rfl, rfl⟩)))
      · exact Or.inl ⟨_, rfl, rfl⟩
    | text content =>
      simp only [shift, align, Shift.part?]
      split
      · exact Or.inr (Or.inr (Or.inr (Or.inr ⟨rfl, rfl⟩)))
      · exact Or.inl ⟨_, rfl, rfl⟩

theorem Drawn.shift (h : indentation.Drawn options) (shift : Shift) :
    (indentation.shift options shift).Drawn options := by
  cases shift with
  | indent => exact h.push _
  | align alignment => exact h.align alignment

theorem Drawn.shiftAll (h : indentation.Drawn options) (shifts : List Shift) :
    (indentation.shiftAll options shifts).Drawn options := by
  induction shifts generalizing indentation with
  | nil => exact h
  | cons shift rest ih => exact ih (h.shift shift)

/-- Taking back what has just been added restores the indentation. -/
theorem Drawn.dedent_shift (h : indentation.Drawn options) {shift : Shift}
    (hadds : shift.part?.isSome = true) :
    (indentation.shift options shift).align options .dedent = indentation := by
  obtain ⟨margin, roots⟩ := indentation
  have hmargin : Margin.ofParts options margin.parts = margin := h.margin.symm
  obtain ⟨part, -, heq⟩ | ⟨rfl, -⟩ | ⟨rfl, -⟩ | ⟨rfl, -⟩ | ⟨hnone, -⟩ :=
    shift_cases options ⟨margin, roots⟩ shift
  · rw [heq]
    show (⟨Margin.ofParts options (margin.parts ++ [part]).dropLast, roots⟩ : Indentation) = _
    rw [List.dropLast_concat, hmargin]
  · cases hadds
  · cases hadds
  · cases hadds
  · rw [hnone] at hadds
    cases hadds

/-! ### What a margin is made of -/

/-- An indentation with nothing else in its margins, the marked ones included. -/
structure Asked (shifts : List Shift) (indentation : Indentation) : Prop where
  margin : indentation.margin.Asked shifts
  roots : ∀ margin ∈ indentation.roots, margin.Asked shifts

theorem Asked.shift (h : indentation.Asked shifts) {shift : Shift} (hshift : shift ∈ shifts) :
    (indentation.shift options shift).Asked shifts := by
  obtain ⟨part, hpart, heq⟩ | ⟨-, heq⟩ | ⟨-, heq⟩ | ⟨-, heq⟩ | ⟨-, heq⟩ :=
    shift_cases options indentation shift
  · rw [heq]
    refine ⟨?_, h.roots⟩
    have hnew : ∃ shift ∈ shifts, shift.part? = some part := ⟨shift, hshift, hpart⟩
    exact List.forall_mem_append.2 ⟨h.margin, List.forall_mem_singleton.2 hnew⟩
  · rw [heq]
    refine ⟨?_, h.roots⟩
    intro part hpart
    exact h.margin part (List.dropLast_subset _ hpart)
  · rw [heq]
    obtain ⟨margin, roots⟩ := indentation
    cases roots with
    | nil => exact ⟨by simp [root, Margin.Asked], by simp [root]⟩
    | cons first rest =>
      obtain ⟨hfirst, hrest⟩ := List.forall_mem_cons.1 h.roots
      exact ⟨hfirst, hrest⟩
  · rw [heq]
    exact ⟨h.margin, List.forall_mem_cons.2 ⟨h.margin, h.roots⟩⟩
  · rw [heq]
    exact h

theorem Asked.shiftAll {more : List Shift} (h : indentation.Asked shifts)
    (hmore : ∀ shift ∈ more, shift ∈ shifts) :
    (indentation.shiftAll options more).Asked shifts := by
  induction more generalizing indentation with
  | nil => exact h
  | cons shift rest ih =>
    obtain ⟨hshift, hrest⟩ := List.forall_mem_cons.1 hmore
    exact ih (h.shift hshift) hrest

/-- Text in the margin is text that was asked for. -/
theorem Asked.text {content : List Char} (h : indentation.Asked shifts)
    (hcontent : .text content ∈ indentation.margin.parts) :
    ∃ asked, .align (.text asked) ∈ shifts ∧ content = asked.toList := by
  obtain ⟨shift, hshift, hpart⟩ := h.margin _ hcontent
  cases shift with
  | indent => cases hpart
  | align alignment =>
    cases alignment with
    | text asked =>
      simp only [Shift.part?] at hpart
      split at hpart
      · cases hpart
      · cases hpart
        exact ⟨asked, hshift, rfl⟩
    | width columns =>
      simp only [Shift.part?] at hpart
      split at hpart <;> cases hpart
    | dedent | dedentToRoot | markRoot => cases hpart

/-! ### Marks -/

theorem roots_shift {shift : Shift} (h : shift.keepsMarks = true) :
    (indentation.shift options shift).roots = indentation.roots := by
  obtain ⟨part, -, heq⟩ | ⟨-, heq⟩ | ⟨rfl, -⟩ | ⟨rfl, -⟩ | ⟨-, heq⟩ :=
    shift_cases options indentation shift
  · rw [heq]
    rfl
  · rw [heq]
    rfl
  · cases h
  · cases h
  · rw [heq]

theorem roots_shiftAll (h : ∀ shift ∈ shifts, shift.keepsMarks = true) :
    (indentation.shiftAll options shifts).roots = indentation.roots := by
  induction shifts generalizing indentation with
  | nil => rfl
  | cons shift rest ih =>
    obtain ⟨hshift, hrest⟩ := List.forall_mem_cons.1 h
    calc (indentation.shiftAll options (shift :: rest)).roots
        = (indentation.shift options shift).roots := ih hrest
      _ = indentation.roots := roots_shift hshift

/-- Without a mark there is nothing to go back to. -/
theorem roots_eq_nil (hroots : indentation.roots = []) (h : .align .markRoot ∉ shifts) :
    (indentation.shiftAll options shifts).roots = [] := by
  induction shifts generalizing indentation with
  | nil => exact hroots
  | cons shift rest ih =>
    rw [List.mem_cons, not_or] at h
    obtain ⟨hshift, hrest⟩ := h
    apply ih _ hrest
    obtain ⟨part, -, heq⟩ | ⟨-, heq⟩ | ⟨-, heq⟩ | ⟨hmark, -⟩ | ⟨-, heq⟩ :=
      shift_cases options indentation shift
    · rw [heq]
      exact hroots
    · rw [heq]
      exact hroots
    · rw [heq, root, hroots]
    · exact absurd hmark.symm hshift
    · rw [heq]
      exact hroots

end

end Indentation

/-! ## Margins of the indentations that can be asked for -/

/-- Tabs take as many columns as they are wide, and all other characters one. -/
theorem visualWidth_eq_count (options : LayoutOptions) (cs : List Char) :
    visualWidth options cs = cs.count '\t' * options.tabWidth + cs.countP (· ≠ '\t') := by
  have hwidth := @visualWidth_eq options cs
  have hlength : cs.length = cs.count '\t' + cs.countP (· ≠ '\t') := by
    rw [List.length_eq_countP_add_countP (· == '\t'), List.count]
    simp
  zify
  rw [hwidth, hlength]
  push_cast
  ring

open Indentation in
/-- **Indentation follows its changes.** Of every indentation that can be asked for,
starting from none, the margin is what writing its changes from scratch gives, and
what can be read off them. Unless text with a tab has been asked for, its length
counts each tab as wide as tabs are and every other character as one. Taking back
what has just been added restores the indentation as it was. Going back to a mark
restores the indentation that was marked, whatever has been added and taken back
since; and where nothing was marked it leads back to no indentation. -/
theorem indentation_follows_changes (options : LayoutOptions) (shifts : List Shift) :
    let indentation := shiftAll options {} shifts
    indentation.margin = Margin.ofParts options indentation.margin.parts ∧
    indentation.margin = Margin.spelled options indentation.margin.parts ∧
    ((∀ content, .align (.text content) ∈ shifts → '\t' ∉ content.toList) →
      indentation.margin.length = indentation.margin.value.count '\t' * options.tabWidth
        + indentation.margin.value.countP (· ≠ '\t')) ∧
    (∀ added : Shift, added.part?.isSome = true →
      (indentation.shift options added).shift options (.align .dedent) = indentation) ∧
    (∀ since : List Shift, (∀ shift ∈ since, shift.keepsMarks = true) →
      ((indentation.shift options (.align .markRoot)).shiftAll options since).shift options
        (.align .dedentToRoot) = indentation) ∧
    (.align .markRoot ∉ shifts →
      indentation.shift options (.align .dedentToRoot) = {}) := by
  intro indentation
  have hempty : Drawn options {} := ⟨rfl, by simp⟩
  have hdrawn : indentation.Drawn options := hempty.shiftAll shifts
  refine ⟨hdrawn.margin, ?_, ?_, ?_, ?_, ?_⟩
  · rw [← ofParts_eq_spelled]
    exact hdrawn.margin
  · intro htabs
    have hnone : Asked shifts {} := ⟨by simp [Margin.Asked], by simp⟩
    have hasked : indentation.Asked shifts := hnone.shiftAll fun _ hshift => hshift
    rw [← visualWidth_eq_count, hdrawn.margin]
    apply length_ofParts
    intro part hpart content htext
    subst htext
    obtain ⟨asked, hmem, rfl⟩ := hasked.text hpart
    exact htabs asked hmem
  · intro added hadded
    exact hdrawn.dedent_shift hadded
  · intro since hsince
    have hroots : ((indentation.shift options (.align .markRoot)).shiftAll options since).roots
        = indentation.margin :: indentation.roots := roots_shiftAll hsince
    show root _ = indentation
    rw [root, hroots]
  · intro hmark
    have hroots : indentation.roots = [] := roots_eq_nil rfl hmark
    show root indentation = {}
    rw [root, hroots]

open Indentation in
/-- Columns between a level and a quotation mark, and more taken back than was added
since the mark was set. -/
theorem indentation_follows_changes_quoted :
    let shifts : List Shift := [.indent, .align (.width 3), .align (.text "> ")]
    let since : List Shift := [.indent, .align .dedent, .align .dedent]
    let indentation := shiftAll {} {} shifts
    indentation.margin = ⟨[.level, .columns 3, .text ['>', ' ']], ['\t', '\t', '>', ' '], 18⟩ ∧
    indentation.margin.length = 2 * 8 + 2 ∧
    (indentation.shift {} (.align (.width 1))).shift {} (.align .dedent) = indentation ∧
    ((indentation.shift {} (.align .markRoot)).shiftAll {} since).shift {}
      (.align .dedentToRoot) = indentation ∧
    indentation.shift {} (.align .dedentToRoot) = {} := by
  intro shifts since indentation
  obtain ⟨-, -, hlength, hdedent, hroot, hnone⟩ := indentation_follows_changes {} shifts
  have htabs : ∀ content, Shift.align (.text content) ∈ shifts → '\t' ∉ content.toList := by
    intro content hcontent
    have heq : content = "> " := by simpa [shifts] using hcontent
    rw [heq]
    decide
  exact ⟨by decide, hlength htabs, hdedent _ rfl, hroot since (by decide), hnone (by decide)⟩

end LatexFormatter.Doc
