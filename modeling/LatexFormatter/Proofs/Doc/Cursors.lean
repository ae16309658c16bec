import LatexFormatter.Proofs.Doc.Flat
import LatexFormatter.Proofs.Doc.Strokes
import LatexFormatter.Proofs.Grammar.Places
import Mathlib.Data.List.DropRight

/-
  Cursors and the output in front of them. Blanks are removed from the end of the
  output at every line break and on demand; what a cursor points at stays where it is
  because nothing in front of the last recorded one is ever touched. A step either
  records a place, at the end of the output, or leaves the settled output and the
  recorded places as they are (`step_records`); so both only grow
  (`Reaches.retains`), and the offset of the first cursor stays that of the output
  that there was when it was carried out (`cursor_stays_valid`).
-/

namespace LatexFormatter

/-! ## Offsets and bytes -/

theorem utf8Length_reverse (cs : List Char) : utf8Length cs.reverse = utf8Length cs := by
  induction cs with
  | nil => rfl
  | cons c cs ih =>
    rw [List.reverse_cons, utf8Length_append, ih]
    simp only [utf8Length]
    omega

theorem utf8ByteSize_ofList (cs : List Char) : (String.ofList cs).utf8ByteSize = utf8Length cs := by
  induction cs with
  | nil => rfl
  | cons c cs ih =>
    rw [← List.singleton_append, String.ofList_append, String.utf8ByteSize_append, ih,
      utf8Length_append]
    simp [utf8Length]

/-- The length of the front of a text is a boundary of it, and the bytes before are
those of the front. -/
theorem ofList_append_offset (front back : List Char) :
    let text := String.ofList (front ++ back)
    utf8Length front ≤ text.utf8ByteSize ∧ String.Pos.Raw.IsValid text ⟨utf8Length front⟩ ∧
      text.toByteArray.extract 0 (utf8Length front) = (String.ofList front).toByteArray := by
  intro text
  have htext : text = String.ofList front ++ String.ofList back := String.ofList_append
  have hsize := utf8ByteSize_ofList front
  refine ⟨?_, ?_, ?_⟩
  · rw [htext, String.utf8ByteSize_append, hsize]
    omega
  · apply String.Pos.Raw.isValid_iff_exists_append.2
    refine ⟨_, _, htext, ?_⟩
    rw [← hsize]
    rfl
  · rw [htext, String.toByteArray_append]
    exact ByteArray.extract_append_eq_left hsize.symm

/-- The text cut at a byte offset, if that is a boundary of it. -/
def cutAt? : Nat → List Char → Option (List Char × List Char)
  | 0, cs => some ([], cs)
  | _ + 1, [] => none
  | bytes + 1, c :: cs =>
    if c.utf8Size ≤ bytes + 1 then
      (cutAt? (bytes + 1 - c.utf8Size) cs).map fun (front, back) => (c :: front, back)
    else none

/-- The text without the blanks at its end, none before byte `floor` removed, if it can
be cut there. -/
def trimFrom? (floor : Nat) (text : List Char) : Option (List Char) :=
  (cutAt? floor text).map fun (front, back) => front ++ back.rdropWhile isSpace

theorem cutAt?_append (front back : List Char) :
    cutAt? (utf8Length front) (front ++ back) = some (front, back) := by
  induction front with
  | nil => cases back <;> rfl
  | cons c cs ih =>
    have hpos := c.utf8Size_pos
    obtain ⟨bytes, hbytes⟩ : ∃ bytes, utf8Length (c :: cs) = bytes + 1 := by
      refine ⟨utf8Length (c :: cs) - 1, ?_⟩
      simp only [utf8Length]
      omega
    have hrest : bytes + 1 - c.utf8Size = utf8Length cs := by
      simp only [utf8Length] at hbytes
      omega
    have hle : c.utf8Size ≤ bytes + 1 := by
      simp only [utf8Length] at hbytes
      omega
    rw [hbytes, List.cons_append, cutAt?, if_pos hle, hrest, ih]
    rfl

namespace Doc.Machine

variable {options : LayoutOptions} {machine next later : Machine}

/-! ## What is recorded -/

/-- The output, first character first. -/
def written (machine : Machine) : List Char := machine.out.reverse

/-- The next command to be carried out is a cursor. -/
def AtCursor (machine : Machine) : Prop :=
  ∃ indentation flow rest, machine.commands = ⟨indentation, flow, cursor⟩ :: rest

/-- The offset in front of which no blanks are removed: that of the last recorded
place, or the start. -/
def floor (machine : Machine) : Nat := machine.cursors.headD 0

theorem stroke_eq_mark_iff : machine.stroke = .mark ↔ machine.AtCursor := by
  constructor
  · intro h
    unfold stroke at h
    split at h
    · cases h
    · next command rest hcommands =>
      obtain ⟨indentation, flow, doc⟩ := command
      cases doc with
      | cursor => exact ⟨indentation, flow, rest, hcommands⟩
      | line hard soft literal =>
        simp only [Command.stroke] at h
        split at h
        · split at h <;> cases h
        · split at h <;> cases h
      | text | concat | group | fill | indent | align | ifBreak | lineSuffix | lineSuffixBoundary
      | breakParent | trim => cases h
  · intro ⟨indentation, flow, rest, hcommands⟩
    rw [stroke, hcommands]
    rfl

/-- A step records the end of the output, because it carries out a cursor and there
are not two places yet, or it leaves what is settled and recorded. -/
theorem step_records (hstep : machine.step options = some next) :
    (machine.AtCursor ∧ next.settled = machine.out ∧ next.tail = [] ∧
      next.cursors = utf8Length machine.out :: machine.cursors) ∨
    ((machine.AtCursor → 2 ≤ machine.cursors.length) ∧ next.settled = machine.settled ∧
      next.cursors = machine.cursors) := by
  obtain ⟨commands, suffixes, remeasure, hnext⟩ := step_draws hstep
  by_cases hmark : machine.stroke = .mark
  · have hcursor := stroke_eq_mark_iff.1 hmark
    rw [hmark] at hnext
    simp only [Stroke.draw, mark] at hnext
    split at hnext
    · subst hnext
      exact Or.inl ⟨hcursor, rfl, rfl, rfl⟩
    · next hfull =>
      subst hnext
      exact Or.inr ⟨fun _ => by omega, rfl, rfl⟩
  · refine Or.inr ⟨fun hcursor => absurd (stroke_eq_mark_iff.2 hcursor) hmark, ?_⟩
    cases hstroke : machine.stroke with
    | mark => exact absurd hstroke hmark
    | start literal margin =>
      rw [hstroke] at hnext
      subst hnext
      cases literal <;> exact ⟨rfl, rfl⟩
    | nothing | write | trim =>
      rw [hstroke] at hnext
      subst hnext
      exact ⟨rfl, rfl⟩

/-- Settled output and recorded places stay, and more may come. -/
structure Retains (machine later : Machine) : Prop where
  settled : machine.settled <:+ later.settled
  cursors : machine.cursors <:+ later.cursors

theorem step_retains (hstep : machine.step options = some next) : machine.Retains next := by
  obtain ⟨-, hsettled, -, hcursors⟩ | ⟨-, hsettled, hcursors⟩ := step_records hstep
  · refine ⟨?_, ?_⟩
    · rw [hsettled]
      exact List.suffix_append ..
    · rw [hcursors]
      exact List.suffix_cons ..
  · exact ⟨hsettled ▸ List.suffix_rfl, hcursors ▸ List.suffix_rfl⟩

theorem Reaches.retains (h : Reaches options machine later) : machine.Retains later := by
  induction h with
  | refl => exact ⟨List.suffix_rfl, List.suffix_rfl⟩
  | step _ hstep ih =>
    have hnext := step_retains hstep
    exact ⟨ih.settled.trans hnext.settled, ih.cursors.trans hnext.cursors⟩

/-! ## Where blanks are removed -/

/-- The last recorded place is the end of the settled output. -/
theorem Reaches.floor_eq {doc : Doc} (h : Reaches options (initial doc) machine) :
    machine.floor = utf8Length machine.settled := by
  induction h with
  | refl => rfl
  | step _ hstep ih =>
    obtain ⟨-, hsettled, -, hcursors⟩ | ⟨-, hsettled, hcursors⟩ := step_records hstep
    · rw [floor, hcursors, hsettled]
      rfl
    · rw [floor, hcursors, hsettled]
      exact ih

theorem written_eq (machine : Machine) :
    machine.written = machine.settled.reverse ++ machine.tail.reverse := by
  rw [written, out, List.reverse_append]

/-- Removing blanks cuts the output where the last place was recorded, and takes them
from the end of what is behind it. -/
theorem trimFrom?_written (h : machine.floor = utf8Length machine.settled) :
    trimFrom? machine.floor machine.written = some machine.trim.written := by
  have hcut := cutAt?_append machine.settled.reverse machine.tail.reverse
  rw [utf8Length_reverse] at hcut
  rw [trimFrom?, h, written_eq, hcut, written_eq machine.trim]
  show some (machine.settled.reverse ++ machine.tail.reverse.rdropWhile isSpace)
    = some (machine.settled.reverse ++ (machine.tail.dropWhile isSpace).reverse)
  rw [List.rdropWhile_reverse]

/-! ## The first cursor -/

/-- The states that a layout goes through up to its first cursor. -/
inductive BeforeCursor (options : LayoutOptions) (doc : Doc) : Machine → Prop
  | start : BeforeCursor options doc (initial doc)
  | step {machine next : Machine} (h : BeforeCursor options doc machine)
      (hcursor : ¬ machine.AtCursor) (hstep : machine.step options = some next) :
      BeforeCursor options doc next

section

variable {doc : Doc} {first : Machine}

theorem BeforeCursor.reaches (h : BeforeCursor options doc machine) :
    Reaches options (initial doc) machine := by
  induction h with
  | start => exact .refl
  | step _ _ hstep ih => exact ih.step hstep

theorem BeforeCursor.cursors_eq (h : BeforeCursor options doc machine) : machine.cursors = [] := by
  induction h with
  | start => rfl
  | step _ hcursor hstep ih =>
    obtain ⟨hat, -⟩ | ⟨-, -, hcursors⟩ := step_records hstep
    · exact absurd hat hcursor
    · rw [hcursors, ih]

/-- A state is one before the first cursor, or it comes after it. -/
theorem Reaches.beforeCursor_or (h : Reaches options (initial doc) machine) :
    BeforeCursor options doc machine ∨
      ∃ first next, BeforeCursor options doc first ∧ first.AtCursor ∧
        first.step options = some next ∧ Reaches options next machine := by
  induction h with
  | refl => exact Or.inl .start
  | @step machine next _ hstep ih =>
    rcases ih with hbefore | ⟨first, second, hbefore, hcursor, hfirst, hreach⟩
    · by_cases hcursor : machine.AtCursor
      · exact Or.inr ⟨machine, next, hbefore, hcursor, hstep, .refl⟩
      · exact Or.inl (hbefore.step hcursor hstep)
    · exact Or.inr ⟨first, second, hbefore, hcursor, hfirst, hreach.step hstep⟩

/-- The first cursor settles the whole output and is recorded. -/
theorem BeforeCursor.records (h : BeforeCursor options doc first) (hcursor : first.AtCursor)
    (hstep : first.step options = some next) :
    next.settled = first.out ∧ next.cursors = [utf8Length first.out] := by
  have hnone := h.cursors_eq
  obtain ⟨-, hsettled, -, hcursors⟩ | ⟨hfull, -⟩ := step_records hstep
  · rw [hnone] at hcursors
    exact ⟨hsettled, hcursors⟩
  · have := hfull hcursor
    rw [hnone, List.length_nil] at this
    omega

/-- What comes after a state is the state itself or comes after its next one. -/
theorem Reaches.eq_or (hstep : machine.step options = some next)
    (h : Reaches options machine later) : later = machine ∨ Reaches options next later := by
  induction h with
  | refl => exact Or.inl rfl
  | @step later after _ hlater ih =>
    refine Or.inr ?_
    rcases ih with heq | hreach
    · rw [heq, hstep] at hlater
      rw [← Option.some.inj hlater]
      exact .refl
    · exact hreach.step hlater

/-- From the first cursor on, the output there was stands and its length is the first
of the recorded places. -/
theorem BeforeCursor.stands (h : BeforeCursor options doc first) (hcursor : first.AtCursor)
    (hstep : first.step options = some next) (hreach : Reaches options next later) :
    first.written <+: later.written ∧ later.cursors.getLast? = some (utf8Length first.written) := by
  obtain ⟨hsettled, hcursors⟩ := h.records hcursor hstep
  have hretains := hreach.retains
  constructor
  · rw [written, written, List.reverse_prefix, ← hsettled]
    exact hretains.settled.trans (List.suffix_append ..)
  · obtain ⟨more, hmore⟩ := hretains.cursors
    rw [← hmore, hcursors, List.getLast?_concat, written, utf8Length_reverse]

end

/-! ## The end of a run -/

theorem reaches_run (options : LayoutOptions) (machine : Machine) :
    Reaches options machine (machine.run options) :=
  (run_keeps options (Reaches options machine) (fun _ _ h hstep => h.step hstep) machine .refl).1

theorem Reaches.run_eq (h : Reaches options machine later) :
    machine.run options = later.run options := by
  induction h with
  | refl => rfl
  | step _ hstep ih => rw [ih, run_of_step hstep]

/-- A cursor that is carried out leaves a place recorded at the end of the run. -/
theorem AtCursor.cursors_run (h : machine.AtCursor) : (machine.run options).cursors ≠ [] := by
  obtain ⟨indentation, flow, rest, hcommands⟩ := h
  obtain ⟨next, hstep⟩ : ∃ next, machine.step options = some next := by
    rw [step, hcommands]
    exact ⟨_, rfl⟩
  have hnext : next.cursors ≠ [] := by
    obtain ⟨-, -, -, hcursors⟩ | ⟨hfull, -, hcursors⟩ := step_records hstep
    · rw [hcursors]
      exact List.cons_ne_nil _ _
    · have hlength := hfull ⟨indentation, flow, rest, hcommands⟩
      rw [hcursors]
      intro hnil
      rw [hnil, List.length_nil] at hlength
      omega
  obtain ⟨more, hmore⟩ := (reaches_run options next).retains.cursors
  rw [run_of_step hstep, ← hmore]
  exact List.append_ne_nil_of_right_ne_nil _ hnext

end Doc.Machine

namespace Doc

open Machine

/-- **The cursor stays where it was put.** There is a cursor offset if and only if a
cursor is carried out. It is then a boundary of the printed text, and the bytes before
it are those of the output that there was when the first cursor was to be carried out,
which is the start of the output in every state from then on. And in every state
removing blanks cuts the output at a boundary of it, that of the last recorded
place. -/
theorem cursor_stays_valid (options : LayoutOptions) (doc : Doc) :
    let printed := render options doc
    (printed.cursor = none ↔
      ∀ machine, Reaches options (initial doc) machine → ¬ machine.AtCursor) ∧
    (∀ offset, printed.cursor = some offset →
      offset ≤ printed.text.utf8ByteSize ∧ String.Pos.Raw.IsValid printed.text ⟨offset⟩ ∧
      ∃ first, BeforeCursor options doc first ∧ first.AtCursor ∧
        offset = utf8Length first.written ∧
        printed.text.toByteArray.extract 0 offset = (String.ofList first.written).toByteArray ∧
        ∀ later, Reaches options first later → first.written <+: later.written) ∧
    (∀ machine, Reaches options (initial doc) machine →
      trimFrom? machine.floor machine.written = some machine.trim.written) := by
  intro printed
  have hfinal := reaches_run options (initial doc)
  refine ⟨⟨?_, ?_⟩, ?_, ?_⟩
  · intro hnone machine hreach hcursor
    have hcursors := @AtCursor.cursors_run options machine hcursor
    rw [← hreach.run_eq] at hcursors
    exact hcursors (List.getLast?_eq_none_iff.1 hnone)
  · intro hno
    rcases hfinal.beforeCursor_or with hbefore | ⟨first, -, hbefore, hcursor, -⟩
    · exact List.getLast?_eq_none_iff.2 hbefore.cursors_eq
    · exact absurd hcursor (hno first hbefore.reaches)
  · intro offset hoffset
    rcases hfinal.beforeCursor_or with hbefore | ⟨first, next, hbefore, hcursor, hstep, hreach⟩
    · have hnone : printed.cursor = none := List.getLast?_eq_none_iff.2 hbefore.cursors_eq
      rw [hnone] at hoffset
      cases hoffset
    · obtain ⟨⟨rest, hrest⟩, hlast⟩ := hbefore.stands hcursor hstep hreach
      have heq : offset = utf8Length first.written := Option.some.inj (hoffset.symm.trans hlast)
      have htext : printed.text = String.ofList (first.written ++ rest) := by
        rw [hrest]
        rfl
      obtain ⟨hle, hvalid, hbytes⟩ := ofList_append_offset first.written rest
      rw [← htext, ← heq] at hle hvalid hbytes
      refine ⟨hle, hvalid, first, hbefore, hcursor, heq, hbytes, ?_⟩
      intro later hlater
      rcases hlater.eq_or hstep with hsame | hlater
      · exact hsame ▸ List.prefix_rfl
      · exact (hbefore.stands hcursor hstep hlater).1
  · intro machine hreach
    exact trimFrom?_written hreach.floor_eq

-- blanks in front of a cursor stay, those behind it go
example : render {} (concat [text "a ", cursor, text " ", hardline, text "b"])
    = ⟨"a \nb", some 2⟩ := by
  cbv

end Doc

end LatexFormatter
