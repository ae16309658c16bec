import LatexFormatter.Proofs.Doc.WithinWidth

/-
  Documents in which no line has to be taken and nothing is kept back.
  Such a document has one text if all its lines are passed over (`flatText`). It
  fits into a width exactly if this text does (`fits_iff_flat`), and a machine
  that has room for the flat text of its commands prints it, since every fill on
  the way finds the room that it looks for (`Smooth.run`).
-/

namespace LatexFormatter.Doc

/-! ## Documents without hard lines -/

/-- Documents built from text within a line, sequences, changes of indentation,
choices, groups and fills, and lines that need not be taken. -/
inductive NoHardLine : Doc → Prop
  | text {content : String} (h : '\n' ∉ content.toList) : NoHardLine (text content)
  | concat {parts : List Doc} (h : ∀ doc ∈ parts, NoHardLine doc) : NoHardLine (concat parts)
  | group {contents : Doc} (h : NoHardLine contents) : NoHardLine (group contents false none)
  | fill {parts : List Doc} (h : ∀ doc ∈ parts, NoHardLine doc) : NoHardLine (fill parts)
  | indent {contents : Doc} (h : NoHardLine contents) : NoHardLine (indent contents)
  | align (alignment : Alignment) {contents : Doc} (h : NoHardLine contents) :
      NoHardLine (align alignment contents)
  | line (soft literal : Bool) : NoHardLine (line false soft literal)
  | ifBreak {broken flat : Doc} (hb : NoHardLine broken) (hf : NoHardLine flat) :
      NoHardLine (ifBreak broken flat)

mutual

/-- The text of a document whose lines are passed over: a line is a space, or
nothing if it is soft. -/
def flatText : Doc → List Char
  | text content => content.toList
  | concat parts => flatTextAll parts
  | group contents _ _ => flatText contents
  | fill parts => flatTextAll parts
  | indent contents => flatText contents
  | align _ contents => flatText contents
  | line _ soft _ => if soft then [] else [' ']
  | ifBreak _ flat => flatText flat
  | _ => []

def flatTextAll : List Doc → List Char
  | [] => []
  | doc :: rest => flatText doc ++ flatTextAll rest

end

/-- There is nothing to mark where no line has to be taken. -/
theorem propagateAll_of_noHardLine {docs : List Doc}
    (h : ∀ doc ∈ docs, propagateBreaks doc = (doc, false)) : propagateAll docs = (docs, false) := by
  induction docs with
  | nil => rfl
  | cons doc rest ih =>
    obtain ⟨hdoc, hrest⟩ := List.forall_mem_cons.1 h
    simp [propagateAll, hdoc, ih hrest]

theorem propagateBreaks_of_noHardLine {doc : Doc} (h : NoHardLine doc) :
    propagateBreaks doc = (doc, false) := by
  induction h with
  | text _ | line _ _ => rfl
  | concat _ ih | fill _ ih => simp [propagateBreaks, propagateAll_of_noHardLine ih]
  | group _ ih | indent _ ih | align _ _ ih => simp [propagateBreaks, ih]
  | ifBreak _ _ ihb ihf => simp [propagateBreaks, ihb, ihf]

theorem newline_notMem_flatText {doc : Doc} (h : NoHardLine doc) : '\n' ∉ doc.flatText := by
  have hall : ∀ {docs : List Doc}, (∀ doc ∈ docs, '\n' ∉ doc.flatText) →
      '\n' ∉ flatTextAll docs := by
    intro docs hdocs
    induction docs with
    | nil => simp [flatTextAll]
    | cons doc rest ih =>
      obtain ⟨hdoc, hrest⟩ := List.forall_mem_cons.1 hdocs
      simp [flatTextAll, hdoc, ih hrest]
  induction h with
  | text h => exact h
  | concat _ ih | fill _ ih => exact hall ih
  | group _ ih | indent _ ih | align _ _ ih => exact ih
  | line soft _ => cases soft <;> simp [flatText]
  | ifBreak _ _ _ ihf => exact ihf

/-! ## Looking ahead -/

/-- A command to print a document without hard lines flat. -/
structure Command.Flat (command : Command) : Prop where
  flow : command.flow = .flat
  noHardLine : NoHardLine command.doc

/-- The text of commands whose lines are passed over. -/
def commandText (commands : List Command) : List Char :=
  flatTextAll (commands.map Command.doc)

@[simp] theorem commandText_nil : commandText [] = [] := rfl

@[simp] theorem commandText_cons (command : Command) (rest : List Command) :
    commandText (command :: rest) = command.doc.flatText ++ commandText rest := rfl

@[simp] theorem commandText_append (xs ys : List Command) :
    commandText (xs ++ ys) = commandText xs ++ commandText ys := by
  induction xs with
  | nil => rfl
  | cons x xs ih => simp [ih]

@[simp] theorem commandText_all (indentation : Indentation) (flow : Flow) (docs : List Doc) :
    commandText (Command.all indentation flow docs) = flatTextAll docs := by
  simp [commandText, Command.all, Function.comp_def]

theorem flat_all {indentation : Indentation} {docs : List Doc} (h : ∀ doc ∈ docs, NoHardLine doc) :
    ∀ command ∈ Command.all indentation .flat docs, command.Flat := by
  intro command hmem
  obtain ⟨doc, hdoc, rfl⟩ := List.mem_map.1 hmem
  exact ⟨rfl, h doc hdoc⟩

/-- Commands that are printed flat fit exactly if their text does. -/
theorem fits_iff_flat (mustBeFlat : Bool) (width : Int) (kept : Bool) (trailing : Nat)
    {commands : List Command} (hflat : ∀ command ∈ commands, command.Flat) :
    fits mustBeFlat width kept trailing commands = true ↔
      ((commandText commands).length : Int) ≤ width := by
  -- looking ahead replaces a command by cheaper ones
  induction hcost : commandCost commands using Nat.strongRecOn
    generalizing width kept trailing commands with
  | ind n ih =>
  have next : ∀ (width : Int) (trailing : Nat) (later : List Command), commandCost later < n →
      (∀ command ∈ later, command.Flat) →
      (fits mustBeFlat width kept trailing later = true ↔
        ((commandText later).length : Int) ≤ width) :=
    fun width trailing later hlt hflat => ih _ hlt width kept trailing hflat rfl
  rw [fits.eq_def]
  by_cases hwidth : width < 0
  · rw [if_pos hwidth]
    simp only [Bool.false_eq_true, false_iff]
    omega
  rw [if_neg hwidth]
  cases commands with
  | nil => simpa using hwidth
  | cons command rest =>
    obtain ⟨indentation, flow, doc⟩ := command
    obtain ⟨⟨hflow, hdoc⟩, hrest⟩ := List.forall_mem_cons.1 hflat
    simp only at hflow hdoc
    subst hflow
    simp only [commandCost] at hcost
    -- one document in the place of the first
    have instead : ∀ contents : Doc, NoHardLine contents → contents.cost < doc.cost →
        contents.flatText = doc.flatText →
        (fits mustBeFlat width kept trailing (⟨indentation, .flat, contents⟩ :: rest) = true ↔
          ((commandText (⟨indentation, .flat, doc⟩ :: rest)).length : Int) ≤ width) := by
      intro contents hcontents hlt htext
      rw [next width trailing (⟨indentation, .flat, contents⟩ :: rest)
        (by simp only [commandCost]; omega)
        (List.forall_mem_cons.2 ⟨⟨rfl, hcontents⟩, hrest⟩), commandText_cons, commandText_cons]
      simp only [htext]
    -- its parts in the place of the first
    have parts : ∀ docs : List Doc, (∀ doc ∈ docs, NoHardLine doc) → costAll docs < doc.cost →
        flatTextAll docs = doc.flatText →
        (fits mustBeFlat width kept trailing (Command.all indentation .flat docs ++ rest) = true ↔
          ((commandText (⟨indentation, .flat, doc⟩ :: rest)).length : Int) ≤ width) := by
      intro docs hdocs hlt htext
      rw [next width trailing (Command.all indentation .flat docs ++ rest)
        (by rw [commandCost_append, commandCost_all]; omega)
        (List.forall_mem_append.2 ⟨flat_all hdocs, hrest⟩), commandText_append, commandText_all,
        commandText_cons, htext]
    cases hdoc with
    | text h =>
      simp only [cost] at hcost
      simp only [List.contains_iff_mem, h, if_false]
      rw [next _ _ rest (by omega) hrest, commandText_cons, List.length_append]
      simp only [flatText]
      omega
    | concat h => exact parts _ h (by simp [cost]) rfl
    | fill h => exact parts _ h (by simp only [cost]; omega) rfl
    | indent h => exact instead _ h (by simp [cost]) rfl
    | align _ h => exact instead _ h (by simp [cost]) rfl
    | group h =>
      simpa [Flow.inside, Flow.choose] using instead _ h (by simp only [cost]; omega) rfl
    | ifBreak _ hf => exact instead _ hf (Nat.lt_succ_of_le (cost_choose_le .flat _ _)) rfl
    | line soft literal =>
      simp only [cost] at hcost
      cases soft with
      | true =>
        simpa [flatText] using next width trailing rest (by omega) hrest
      | false =>
        have hspace := next (width - 1) (trailing + 1) rest (by omega) hrest
        simp only [show (Flow.flat == Flow.broken) = false from rfl, Bool.or_self,
          Bool.false_eq_true, if_false]
        rw [hspace, commandText_cons, List.length_append]
        simp only [flatText, Bool.false_eq_true, if_false, List.length_singleton]
        omega

/-! ## Printing flat -/

namespace Machine

variable {options : LayoutOptions} {machine next : Machine}

/-- What every step keeps holds when no command is left. -/
theorem run_keeps (options : LayoutOptions) (kept : Machine → Prop)
    (hstep : ∀ machine next, kept machine → machine.step options = some next → kept next)
    (machine : Machine) (hm : kept machine) :
    kept (machine.run options) ∧ (machine.run options).commands = [] := by
  rw [run]
  split
  · next hnone =>
    refine ⟨hm, ?_⟩
    unfold step at hnone
    split at hnone
    · assumption
    · simp at hnone
  · next next hnext => exact run_keeps options kept hstep next (hstep machine next hm hnext)
termination_by machine.cost
decreasing_by exact cost_step ‹_›

/-- All commands are to be printed flat, and there is room for their text. -/
structure Smooth (options : LayoutOptions) (machine : Machine) : Prop where
  suffixes : machine.suffixes = []
  remeasure : machine.remeasure = false
  flat : ∀ command ∈ machine.commands, command.Flat
  column : 0 ≤ machine.column
  room : machine.column + (commandText machine.commands).length ≤ signed64 options.printWidth

/-- The output with the text that is still to come, last character first. -/
def promised (machine : Machine) : List Char :=
  (commandText machine.commands).reverse ++ machine.out

/-- The machine goes on smoothly to the same text. -/
def Continues (options : LayoutOptions) (machine next : Machine) : Prop :=
  next.Smooth options ∧ next.promised = machine.promised

variable {indentation : Indentation} {doc : Doc} {rest : List Command}

/-- Commands with the same text take the place of the first one. -/
theorem Smooth.push (hm : machine.Smooth options)
    (hcommands : machine.commands = ⟨indentation, .flat, doc⟩ :: rest) {pushed : List Command}
    (hflat : ∀ command ∈ pushed, command.Flat) (htext : commandText pushed = doc.flatText) :
    Continues options machine ({ machine with commands := rest }.push pushed) := by
  have hall := hm.flat
  have hroom := hm.room
  rw [hcommands] at hall hroom
  rw [commandText_cons, ← htext, ← commandText_append] at hroom
  refine ⟨⟨hm.suffixes, hm.remeasure, ?_, hm.column, hroom⟩, ?_⟩
  · exact List.forall_mem_append.2 ⟨hflat, (List.forall_mem_cons.1 hall).2⟩
  · simp [promised, Machine.push, hcommands, htext, out]

/-- The text of the first command is written. -/
theorem Smooth.write (hm : machine.Smooth options)
    (hcommands : machine.commands = ⟨indentation, .flat, doc⟩ :: rest)
    (hline : '\n' ∉ doc.flatText) :
    Continues options machine ({ machine with commands := rest }.write doc.flatText) := by
  have hall := hm.flat
  have hpos := hm.column
  have hroom := hm.room
  rw [hcommands] at hall hroom
  simp only [commandText_cons, List.length_append] at hroom
  push_cast at hroom
  -- the text has room, so the column after it is not cut
  have hfits : FitsSigned (machine.column + doc.flatText.length) :=
    fitsSigned_of_le options.printWidth (by omega) (by omega)
  have hcolumn : ({ machine with commands := rest }.write doc.flatText).column
      = machine.column + doc.flatText.length := by
    simp [Machine.write, hline, hold_of_fits hfits]
  refine ⟨⟨hm.suffixes, hm.remeasure, (List.forall_mem_cons.1 hall).2, ?_, ?_⟩, ?_⟩
  · omega
  · rw [hcolumn]
    simp only [Machine.write]
    omega
  · simp [promised, Machine.write, hcommands, out]

/-- What is part of the text that is to come has room by itself. -/
theorem Smooth.hasRoomAlone (hm : machine.Smooth options) {command : Command}
    (hcommand : command.Flat)
    (hlength : command.doc.flatText.length ≤ (commandText machine.commands).length) :
    ({ machine with commands := rest }).hasRoomAlone options command = true := by
  have hroom := hm.room
  have hpos := hm.column
  have hfits : FitsSigned (signed64 options.printWidth - machine.column) :=
    fitsSigned_of_le options.printWidth (by omega) (by omega)
  refine (fits_iff_flat _ _ _ _ (by simpa using hcommand)).2 ?_
  simp only [commandText_cons, commandText_nil, List.append_nil, Machine.room, hold_of_fits hfits]
  omega

/-- A fill inside something flat finds the room that it looks for. -/
theorem Smooth.printFill {parts : List Doc} (hm : machine.Smooth options)
    (hcommands : machine.commands = ⟨indentation, .flat, fill parts⟩ :: rest)
    (hparts : ∀ doc ∈ parts, NoHardLine doc) :
    Continues options machine
      ({ machine with commands := rest }.printFill options indentation .flat parts) := by
  have hlength : (flatTextAll parts).length ≤ (commandText machine.commands).length := by
    rw [hcommands, commandText_cons, List.length_append]
    exact Nat.le_add_right _ _
  have hroom : ∀ doc, NoHardLine doc → doc.flatText.length ≤ (flatTextAll parts).length →
      ({ machine with commands := rest }).hasRoomAlone options ⟨indentation, .flat, doc⟩ = true :=
    fun doc hdoc hle => hm.hasRoomAlone ⟨rfl, hdoc⟩ (Nat.le_trans hle hlength)
  unfold Machine.printFill
  split
  · exact hm.push hcommands (List.forall_mem_nil _) rfl
  · next content =>
    have hcontent := hparts content (by simp)
    simp only [hroom content hcontent (by simp [flatTextAll]), if_true]
    refine hm.push hcommands ?_ (by simp [flatText, flatTextAll])
    simpa using ⟨rfl, hcontent⟩
  · next content separator =>
    have hcontent := hparts content (by simp)
    have hseparator := hparts separator (by simp)
    simp only [hroom content hcontent (by simp [flatTextAll]), if_true]
    refine hm.push hcommands ?_ (by simp [flatText, flatTextAll])
    simpa using ⟨⟨rfl, hcontent⟩, rfl, hseparator⟩
  · next content separator third more =>
    obtain ⟨hcontent, hseparator, hmore⟩ :
        NoHardLine content ∧ NoHardLine separator ∧ ∀ doc ∈ third :: more, NoHardLine doc := by
      simpa using hparts
    have hboth : NoHardLine (concat [content, separator, third]) := by
      refine .concat ?_
      simpa using ⟨hcontent, hseparator, hmore third (by simp)⟩
    have hfit := hroom _ hboth (by
      simp only [flatText, flatTextAll, List.length_append, List.length_nil]
      omega)
    simp only [hfit, Bool.true_or, if_true]
    refine hm.push hcommands ?_ (by simp [flatText, flatTextAll])
    simpa using ⟨⟨rfl, hcontent⟩, ⟨rfl, hseparator⟩, rfl, NoHardLine.fill hmore⟩

/-- Carrying out the first command goes on to the same text. -/
theorem Smooth.execute (hm : machine.Smooth options)
    (hcommands : machine.commands = ⟨indentation, .flat, doc⟩ :: rest) :
    Continues options machine
      ({ machine with commands := rest }.execute options ⟨indentation, .flat, doc⟩) := by
  have hdoc : NoHardLine doc := (hm.flat _ (hcommands ▸ List.mem_cons_self ..)).noHardLine
  have instead : ∀ (indentation' : Indentation) (contents : Doc), NoHardLine contents →
      contents.flatText = doc.flatText → Continues options machine
        ({ machine with commands := rest }.push [⟨indentation', .flat, contents⟩]) := by
    intro indentation' contents hcontents htext
    refine hm.push hcommands ?_ (by simpa using htext)
    simpa using ⟨rfl, hcontents⟩
  cases hdoc with
  | text h => exact hm.write hcommands h
  | concat h => exact hm.push hcommands (flat_all h) (commandText_all ..)
  | group h =>
    have hflat := instead indentation _ h rfl
    simpa [Machine.execute, Machine.printGroup, hm.remeasure, Flow.inside] using hflat
  | fill h => exact hm.printFill hcommands h
  | indent h => exact instead _ _ h rfl
  | align _ h => exact instead _ _ h rfl
  | ifBreak _ hf => exact instead _ _ hf rfl
  | line soft literal =>
    cases soft with
    | false => exact hm.write hcommands (by simp [flatText])
    | true => exact hm.push hcommands (List.forall_mem_nil _) rfl

theorem Smooth.step (hm : machine.Smooth options) (hstep : machine.step options = some next) :
    Continues options machine next := by
  obtain ⟨⟨indentation, flow, doc⟩, rest, hcommands⟩ := exists_command hstep
  obtain rfl : flow = .flat := (hm.flat _ (hcommands ▸ List.mem_cons_self ..)).flow
  have hexecute := hm.execute hcommands
  simp only [Machine.step, hcommands, settle_of_suffixes hexecute.1.suffixes,
    Option.some.injEq] at hstep
  rwa [hstep] at hexecute

/-- A machine with room for the flat text of its commands prints it. -/
theorem Smooth.run (hm : machine.Smooth options) :
    (machine.run options).out = machine.promised := by
  obtain ⟨⟨-, hpromised⟩, hcommands⟩ := run_keeps options (Continues options machine)
    (fun mid next hmid hstep => by
      have hnext := hmid.1.step hstep
      exact ⟨hnext.1, hnext.2.trans hmid.2⟩) machine ⟨hm, rfl⟩
  simpa [promised, hcommands] using hpromised

end Machine

end LatexFormatter.Doc
