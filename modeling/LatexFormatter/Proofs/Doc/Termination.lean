import LatexFormatter.Proofs.Doc.Conservation
import LatexFormatter.Proofs.Doc.Flat

/-
  Laying out ends. The machine carries out one command after the other, and a line
  that finds something kept back puts itself behind it and comes again; a boundary
  turns into such a line, and what was kept back may keep back more. None of this
  goes on forever: every step leaves less to do (`Machine.cost_step`), so a
  document takes at most as many steps as it costs, and when the machine stops
  there is nothing left, on the stack or kept back (`layout_ends`).

  Looking ahead is a loop of its own. `Glance.pass` is what it does once; `fits` is
  the answer that passing again and again leads to, after at most one pass for each
  unit of what the commands cost and one more.
-/

namespace LatexFormatter.Doc

/-! ## Looking ahead, pass by pass -/

/-- A look ahead in progress: the columns that are left, whether something is kept
back, how many blanks the text seen so far ends with, and what is still to be
seen. -/
structure Glance where
  width : Int
  kept : Bool
  trailing : Nat
  commands : List Command

namespace Glance

/-- Looks at the next command: there is an answer, or there is more to look at. -/
def pass (mustBeFlat : Bool) (glance : Glance) : Bool ⊕ Glance :=
  if glance.width < 0 then .inl false
  else match glance.commands with
    | [] => .inl true
    | ⟨indentation, flow, doc⟩ :: rest =>
      match doc with
      | text content =>
        let cs := content.toList
        if cs.contains '\n' then
          .inl (decide (0 ≤ glance.width - (cs.takeWhile (· != '\n')).length))
        else .inr ⟨glance.width - cs.length, glance.kept, trailingBlanks glance.trailing cs, rest⟩
      | concat parts => .inr { glance with commands := Command.all indentation flow parts ++ rest }
      | fill parts => .inr { glance with commands := Command.all indentation flow parts ++ rest }
      | indent contents => .inr { glance with commands := ⟨indentation, flow, contents⟩ :: rest }
      | align _ contents => .inr { glance with commands := ⟨indentation, flow, contents⟩ :: rest }
      | trim => .inr ⟨glance.width + glance.trailing, glance.kept, 0, rest⟩
      | group contents broken states =>
        if mustBeFlat && broken then .inl false
        else .inr { glance with commands := ⟨indentation, flow.inside broken,
          (flow.inside broken).choose (mostExpanded contents states) contents⟩ :: rest }
      | ifBreak broken flat =>
        .inr { glance with commands := ⟨indentation, flow, flow.choose broken flat⟩ :: rest }
      | line hard soft _ =>
        if flow == .broken || hard then .inl true
        else if soft then .inr { glance with commands := rest }
        else .inr ⟨glance.width - 1, glance.kept, glance.trailing + 1, rest⟩
      | lineSuffix _ => .inr { glance with kept := true, commands := rest }
      | lineSuffixBoundary =>
        if glance.kept then .inl true else .inr { glance with commands := rest }
      | breakParent => .inr { glance with commands := rest }
      | cursor => .inr { glance with commands := rest }

/-- The answer that the look ahead comes to. -/
def answer (mustBeFlat : Bool) (glance : Glance) : Bool :=
  fits mustBeFlat glance.width glance.kept glance.trailing glance.commands

/-- A pass settles the answer, or leaves it to what there is still to look at. -/
theorem answer_eq_pass (mustBeFlat : Bool) (glance : Glance) :
    glance.answer mustBeFlat = (glance.pass mustBeFlat).elim id (answer mustBeFlat) := by
  obtain ⟨width, kept, trailing, commands⟩ := glance
  rw [answer, fits.eq_def, pass]
  simp only
  split
  · rfl
  cases commands with
  | nil => rfl
  | cons command rest =>
    obtain ⟨indentation, flow, doc⟩ := command
    cases doc with
    | text content => simp only; split <;> rfl
    | group contents broken states => simp only; split <;> rfl
    | line hard soft literal =>
      simp only
      split
      · rfl
      · split <;> rfl
    | lineSuffixBoundary => simp only; split <;> rfl
    | concat | fill | indent | align | trim | ifBreak | lineSuffix | breakParent | cursor => rfl

/-- What is still to be looked at after a pass costs less. -/
theorem cost_pass {mustBeFlat : Bool} {glance next : Glance}
    (h : glance.pass mustBeFlat = .inr next) :
    commandCost next.commands < commandCost glance.commands := by
  obtain ⟨width, kept, trailing, commands⟩ := glance
  unfold pass at h
  simp only at h
  split at h
  · cases h
  cases commands with
  | nil => cases h
  | cons command rest =>
    obtain ⟨indentation, flow, doc⟩ := command
    have hpos := cost_pos doc
    -- a command that is passed over
    have passed : commandCost rest < commandCost (⟨indentation, flow, doc⟩ :: rest) := by
      simp only [commandCost]
      omega
    -- a cheaper document in its place
    have instead : ∀ (flow' : Flow) (contents : Doc), contents.cost < doc.cost →
        commandCost (⟨indentation, flow', contents⟩ :: rest)
          < commandCost (⟨indentation, flow, doc⟩ :: rest) := by
      intro flow' contents hlt
      simp only [commandCost]
      omega
    cases doc with
    | text content =>
      simp only at h
      split at h
      · cases h
      · cases h
        exact passed
    | concat parts =>
      cases h
      simp only [commandCost_append, commandCost_all, commandCost, cost]
      omega
    | fill parts =>
      cases h
      simp only [commandCost_append, commandCost_all, commandCost, cost]
      omega
    | indent contents =>
      cases h
      exact instead flow contents (by simp [cost])
    | align alignment contents =>
      cases h
      exact instead flow contents (by simp [cost])
    | group contents broken states =>
      simp only at h
      split at h
      · cases h
      · cases h
        apply instead
        have hle := cost_choose_mostExpanded (flow.inside broken) contents states
        simp only [cost]
        omega
    | ifBreak broken flat =>
      cases h
      apply instead
      have hle := cost_choose_le flow broken flat
      simp only [cost]
      omega
    | line hard soft literal =>
      simp only at h
      split at h
      · cases h
      · split at h
        · cases h
          exact passed
        · cases h
          exact passed
    | lineSuffixBoundary =>
      simp only at h
      split at h
      · cases h
      · cases h
        exact passed
    | trim | lineSuffix | breakParent | cursor =>
      cases h
      exact passed

/-- The look ahead has its answer after a number of passes. -/
inductive Answers (mustBeFlat : Bool) : Nat → Glance → Bool → Prop
  | now {glance : Glance} {answer : Bool} (h : glance.pass mustBeFlat = .inl answer) :
      Answers mustBeFlat 1 glance answer
  | later {passes : Nat} {glance next : Glance} {answer : Bool}
      (h : glance.pass mustBeFlat = .inr next) (hnext : Answers mustBeFlat passes next answer) :
      Answers mustBeFlat (passes + 1) glance answer

/-- Every look ahead comes to its answer. -/
theorem exists_answers (mustBeFlat : Bool) (glance : Glance) :
    ∃ passes, passes ≤ commandCost glance.commands + 1 ∧
      Answers mustBeFlat passes glance (glance.answer mustBeFlat) := by
  induction hcost : commandCost glance.commands using Nat.strongRecOn generalizing glance with
  | ind cost ih =>
  rw [answer_eq_pass]
  cases hpass : glance.pass mustBeFlat with
  | inl found => exact ⟨1, by omega, .now hpass⟩
  | inr next =>
    have hlt := cost_pass hpass
    obtain ⟨passes, hle, hnext⟩ := ih _ (hcost ▸ hlt) next rfl
    exact ⟨passes + 1, by omega, .later hpass hnext⟩

end Glance

/-! ## Laying out, step by step -/

namespace Machine

variable {options : LayoutOptions} {machine later : Machine}

/-- The machine after a number of steps, if it takes that many. -/
def after (options : LayoutOptions) : Nat → Machine → Option Machine
  | 0, machine => some machine
  | steps + 1, machine => (machine.step options).bind (after options steps)

/-- Every step is paid for. -/
theorem cost_after {steps : Nat} (h : machine.after options steps = some later) :
    later.cost + steps ≤ machine.cost := by
  induction steps generalizing machine with
  | zero =>
    cases h
    omega
  | succ steps ih =>
    obtain ⟨next, hstep, hafter⟩ := Option.bind_eq_some_iff.1 h
    have hnext := ih hafter
    have hlt := cost_step hstep
    omega

/-- The machine comes to the end of its run. -/
theorem exists_after_run (options : LayoutOptions) (machine : Machine) :
    ∃ steps, machine.after options steps = some (machine.run options) := by
  rw [run]
  split
  · exact ⟨0, rfl⟩
  · next next hstep =>
    obtain ⟨steps, hafter⟩ := exists_after_run options next
    refine ⟨steps + 1, ?_⟩
    rw [after, hstep]
    exact hafter
termination_by machine.cost
decreasing_by exact cost_step ‹_›

/-- At the end of a run nothing is left, neither a command nor anything that was
kept back. -/
theorem run_empties (options : LayoutOptions) (machine : Machine)
    (h : machine.commands = [] → machine.suffixes = []) :
    (machine.run options).commands = [] ∧ (machine.run options).suffixes = [] := by
  obtain ⟨hsuffixes, hcommands⟩ := run_keeps options
    (fun machine => machine.commands = [] → machine.suffixes = [])
    (fun _ _ _ hstep => suffixes_of_step hstep) machine h
  exact ⟨hcommands, hsuffixes hcommands⟩

end Machine

mutual

/-- Marking groups does not change what a document costs. -/
theorem cost_propagateBreaks : ∀ doc : Doc, (propagateBreaks doc).1.cost = doc.cost
  | text _ | line _ _ _ | lineSuffixBoundary | breakParent | trim | cursor => rfl
  | concat parts => by simp [propagateBreaks, cost, costAll_propagateAll parts]
  | fill parts => by simp [propagateBreaks, cost, costAll_propagateAll parts]
  | group contents _ none => by
    simp [propagateBreaks, cost, costStates, cost_propagateBreaks contents]
  | group contents _ (some states) => by
    simp [propagateBreaks, cost, costStates, cost_propagateBreaks contents,
      costAll_propagateAll states]
  | indent contents => by simp [propagateBreaks, cost, cost_propagateBreaks contents]
  | align _ contents => by simp [propagateBreaks, cost, cost_propagateBreaks contents]
  | lineSuffix contents => by simp [propagateBreaks, cost, cost_propagateBreaks contents]
  | ifBreak broken flat => by
    simp [propagateBreaks, cost, cost_propagateBreaks broken, cost_propagateBreaks flat]

theorem costAll_propagateAll : ∀ docs : List Doc,
    costAll (propagateAll docs).1 = costAll docs ∧
      (propagateAll docs).1.length = docs.length
  | [] => ⟨rfl, rfl⟩
  | doc :: rest => by
    simp [propagateAll, costAll, cost_propagateBreaks doc, costAll_propagateAll rest]

end

theorem cost_initial (doc : Doc) : (initial doc).cost = doc.cost := by
  simp [initial, Machine.cost, commandCost, cost_propagateBreaks]

/-- **Laying out a document ends.** Whatever the document and the options, the
machine stops after at most as many steps as the document costs, with no command
left and nothing kept back, and where it stops is what `run` gives; it cannot take
more steps than that. Each time it looks ahead, whatever there is to look at, the
answer comes after finitely many passes and is what `fits` says. -/
theorem layout_ends (options : LayoutOptions) (doc : Doc) :
    (∃ steps last, steps ≤ doc.cost ∧ (initial doc).after options steps = some last ∧
      last.step options = none ∧ last.commands = [] ∧ last.suffixes = [] ∧
      (initial doc).run options = last) ∧
    (∀ steps later, (initial doc).after options steps = some later → steps ≤ doc.cost) ∧
    ∀ (mustBeFlat : Bool) (glance : Glance), ∃ passes,
      passes ≤ commandCost glance.commands + 1 ∧ Glance.Answers mustBeFlat passes glance
        (fits mustBeFlat glance.width glance.kept glance.trailing glance.commands) := by
  have hbound : ∀ steps later, (initial doc).after options steps = some later →
      steps ≤ doc.cost := by
    intro steps later hafter
    have hcost := Machine.cost_after hafter
    rw [cost_initial] at hcost
    omega
  refine ⟨?_, hbound, Glance.exists_answers⟩
  obtain ⟨steps, hafter⟩ := (initial doc).exists_after_run options
  obtain ⟨hcommands, hsuffixes⟩ := (initial doc).run_empties options (by simp [initial])
  refine ⟨steps, _, hbound _ _ hafter, hafter, ?_, hcommands, hsuffixes, rfl⟩
  simp [Machine.step, hcommands]

end LatexFormatter.Doc
