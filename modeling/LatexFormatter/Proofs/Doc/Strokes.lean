import LatexFormatter.Proofs.Doc.Strands

/-
  What a step of the layout can do, said once. To the output it makes a single
  stroke, which follows from the topmost command and from whether something is
  kept back (`Machine.step_draws`). To what is left to do it adds only commands
  that stem from the topmost one (`Machine.step_yields`), so that what such
  commands inherit holds throughout a run (`Machine.Reaches.all`).
-/

namespace LatexFormatter.Doc

/-! ## Strokes -/

/-- What a step does to the output. -/
inductive Stroke where
  | nothing
  | write (content : List Char)
  | trim
  | start (literal : Bool) (margin : Margin)
  | mark
  deriving Repr, DecidableEq

/-- Makes a stroke. A line loses the blanks at its end when another one is started,
unless that one is literal. -/
def Stroke.draw (machine : Machine) : Stroke → Machine
  | nothing => machine
  | write content => machine.write content
  | trim => machine.trim
  | start literal margin => (if literal then machine else machine.trim).startLine margin
  | mark => machine.mark

/-- The stroke that carrying out a command makes, given whether something is kept
back. A line break that has to wait makes none. -/
def Command.stroke (kept : Bool) (command : Command) : Stroke :=
  match command.doc with
  | text content => .write content.toList
  | line hard soft literal =>
    if command.flow == .flat && !hard then if soft then .nothing else .write [' ']
    else if kept then .nothing
    else .start literal (command.indentation.lineMargin literal)
  | trim => .trim
  | cursor => .mark
  | _ => .nothing

/-! ## Commands that stem from others -/

/-- The commands that carrying out a command may leave to be carried out. -/
inductive Command.Yields (options : LayoutOptions) : Command → Command → Prop
  | concat {indentation : Indentation} {flow : Flow} {parts : List Doc} {doc : Doc}
      (h : doc ∈ parts) : Yields options ⟨indentation, flow, concat parts⟩ ⟨indentation, flow, doc⟩
  | fill {indentation : Indentation} {flow flow' : Flow} {parts : List Doc} {doc : Doc}
      (h : doc ∈ parts) : Yields options ⟨indentation, flow, fill parts⟩ ⟨indentation, flow', doc⟩
  | refill {indentation : Indentation} {flow : Flow} {parts rest : List Doc} (h : rest <:+ parts) :
      Yields options ⟨indentation, flow, fill parts⟩ ⟨indentation, flow, fill rest⟩
  | contents {indentation : Indentation} {flow flow' : Flow} {contents : Doc} {broken : Bool}
      {states : Option (List Doc)} :
      Yields options ⟨indentation, flow, group contents broken states⟩
        ⟨indentation, flow', contents⟩
  | state {indentation : Indentation} {flow flow' : Flow} {contents state : Doc} {broken : Bool}
      {states : List Doc} (h : state ∈ states) :
      Yields options ⟨indentation, flow, group contents broken (some states)⟩
        ⟨indentation, flow', state⟩
  | indent {indentation : Indentation} {flow : Flow} {contents : Doc} :
      Yields options ⟨indentation, flow, indent contents⟩
        ⟨indentation.indent options, flow, contents⟩
  | align {indentation : Indentation} {flow : Flow} {alignment : Alignment} {contents : Doc} :
      Yields options ⟨indentation, flow, align alignment contents⟩
        ⟨indentation.align options alignment, flow, contents⟩
  | ifBreak {indentation : Indentation} {flow : Flow} {broken flat : Doc} :
      Yields options ⟨indentation, flow, ifBreak broken flat⟩
        ⟨indentation, flow, flow.choose broken flat⟩
  | lineSuffix {indentation : Indentation} {flow : Flow} {contents : Doc} :
      Yields options ⟨indentation, flow, lineSuffix contents⟩ ⟨indentation, flow, contents⟩
  | boundary {indentation : Indentation} {flow : Flow} :
      Yields options ⟨indentation, flow, lineSuffixBoundary⟩
        ⟨indentation, flow, line true false false⟩
  | line {indentation : Indentation} {flow : Flow} {hard soft literal : Bool} :
      Yields options ⟨indentation, flow, line hard soft literal⟩
        ⟨indentation, flow, line hard soft literal⟩

namespace Machine

variable {options : LayoutOptions} {machine next : Machine} {command other : Command}

/-- The states that a machine comes to, step by step. -/
inductive Reaches (options : LayoutOptions) (start : Machine) : Machine → Prop
  | refl : Reaches options start start
  | step {machine next : Machine} (h : Reaches options start machine)
      (hstep : machine.step options = some next) : Reaches options start next

theorem Reaches.trans {start later : Machine} (hreach : Reaches options start machine)
    (hlater : Reaches options machine later) : Reaches options start later := by
  induction hlater with
  | refl => exact hreach
  | step _ hstep ih => exact ih.step hstep

theorem exists_command (hstep : machine.step options = some next) :
    ∃ command rest, machine.commands = command :: rest := by
  cases h : machine.commands with
  | nil => simp [Machine.step, h] at hstep
  | cons command rest => exact ⟨command, rest, rfl⟩

/-- The stroke that the next step makes. -/
def stroke (machine : Machine) : Stroke :=
  match machine.commands with
  | [] => .nothing
  | command :: _ => command.stroke !machine.suffixes.isEmpty

/-- A command that is still to be carried out, now or when it is taken up again. -/
def Holds (machine : Machine) (command : Command) : Prop :=
  command ∈ machine.commands ∨ command ∈ machine.suffixes

/-! ## What a step draws -/

/-- Two machines that have written the same, and differ at most in what is left to
do. -/
def Draws (machine drawn : Machine) : Prop :=
  ∃ commands suffixes remeasure, machine
    = { drawn with commands := commands, suffixes := suffixes, remeasure := remeasure }

theorem draws_refl (machine : Machine) : machine.Draws machine :=
  ⟨machine.commands, machine.suffixes, machine.remeasure, rfl⟩

theorem draws_push (commands : List Command) (machine : Machine) :
    (machine.push commands).Draws machine :=
  ⟨commands ++ machine.commands, machine.suffixes, machine.remeasure, rfl⟩

theorem draws_settle {drawn : Machine} (h : machine.Draws drawn) : machine.settle.Draws drawn := by
  obtain ⟨commands, suffixes, remeasure, rfl⟩ := h
  unfold settle
  split
  · exact ⟨_, _, _, rfl⟩
  · exact ⟨_, _, _, rfl⟩

theorem draws_printGroup (options : LayoutOptions) (indentation : Indentation) (flow : Flow)
    (contents : Doc) (broken : Bool) (states : Option (List Doc)) (machine : Machine) :
    (machine.printGroup options indentation flow contents broken states).Draws machine := by
  unfold printGroup
  split
  · exact draws_push _ machine
  · exact ⟨_, _, false, rfl⟩

theorem draws_printFill (options : LayoutOptions) (indentation : Indentation) (flow : Flow)
    (parts : List Doc) (machine : Machine) :
    (machine.printFill options indentation flow parts).Draws machine := by
  unfold printFill
  split
  · exact draws_refl machine
  · exact draws_push _ machine
  · exact draws_push _ machine
  · exact draws_push _ machine

theorem draws_breakLine (indentation : Indentation) (flow : Flow)
    (hard soft literal remeasure : Bool) (machine : Machine) :
    ({ machine with remeasure := remeasure }.breakLine indentation flow hard soft literal).Draws
      ((if !machine.suffixes.isEmpty then Stroke.nothing
        else .start literal (indentation.lineMargin literal)).draw machine) := by
  unfold breakLine
  split
  · exact ⟨_, _, _, rfl⟩
  · cases literal
    · exact ⟨_, _, _, rfl⟩
    · exact ⟨_, _, _, rfl⟩

theorem draws_printLine (indentation : Indentation) (flow : Flow) (hard soft literal : Bool)
    (machine : Machine) :
    (machine.printLine indentation flow hard soft literal).Draws
      ((Command.stroke (!machine.suffixes.isEmpty)
        ⟨indentation, flow, line hard soft literal⟩).draw machine) := by
  cases flow with
  | broken => exact draws_breakLine indentation .broken hard soft literal machine.remeasure machine
  | flat =>
    cases hard with
    | true => exact draws_breakLine indentation .flat true soft literal true machine
    | false =>
      cases soft
      · exact draws_refl _
      · exact draws_refl _

/-- Carrying out a command makes its stroke. -/
theorem execute_draws (options : LayoutOptions) (command : Command) (machine : Machine) :
    (machine.execute options command).Draws
      ((command.stroke !machine.suffixes.isEmpty).draw machine) := by
  obtain ⟨indentation, flow, doc⟩ := command
  cases doc with
  | text | trim | cursor | breakParent => exact draws_refl _
  | concat | indent | align | ifBreak => exact draws_push _ machine
  | group contents broken states => exact draws_printGroup ..
  | fill parts => exact draws_printFill ..
  | line hard soft literal => exact draws_printLine ..
  | lineSuffix contents => exact ⟨_, _, _, rfl⟩
  | lineSuffixBoundary =>
    simp only [execute]
    split
    · exact draws_refl machine
    · exact draws_push _ machine

/-- A step makes a single stroke, and apart from it changes only what is left to
do. -/
theorem step_draws (hstep : machine.step options = some next) :
    next.Draws (machine.stroke.draw machine) := by
  obtain ⟨command, rest, hcommands⟩ := exists_command hstep
  have hdraws := draws_settle (execute_draws options command { machine with commands := rest })
  simp only [step, hcommands, Option.some.injEq] at hstep
  rw [hstep] at hdraws
  obtain ⟨commands, suffixes, remeasure, hnext⟩ := hdraws
  refine ⟨commands, suffixes, remeasure, hnext.trans ?_⟩
  simp only [stroke, hcommands]
  cases command.stroke !machine.suffixes.isEmpty with
  | nothing | write | trim => rfl
  | start literal margin => cases literal <;> rfl
  | mark =>
    simp only [Stroke.draw, mark, out]
    split <;> rfl

/-! ## What a step leaves to be done -/

theorem holds_push {commands : List Command} :
    (machine.push commands).Holds other ↔ other ∈ commands ∨ machine.Holds other := by
  simp [Holds, push, or_assoc]

theorem holds_release : machine.release.Holds other ↔ machine.Holds other := by
  simp [Holds, release, or_comm]

theorem holds_settle : machine.settle.Holds other ↔ machine.Holds other := by
  unfold settle
  split
  · exact holds_release
  · exact Iff.rfl

theorem holds_mark : machine.mark.Holds other ↔ machine.Holds other := by
  unfold mark
  split <;> exact Iff.rfl

theorem mostExpanded_cases (contents : Doc) (states : Option (List Doc)) :
    mostExpanded contents states = contents ∨
      ∃ all, states = some all ∧ mostExpanded contents states ∈ all := by
  cases states with
  | none => exact Or.inl rfl
  | some all =>
    cases h : all.getLast? with
    | none => exact Or.inl (by simp [mostExpanded, List.getLastD_eq_getLast?, h])
    | some last =>
      refine Or.inr ⟨all, rfl, ?_⟩
      simpa [mostExpanded, List.getLastD_eq_getLast?, h] using List.mem_of_getLast? h

/-- A group is printed as its contents, or as one of its states. -/
theorem yields_chooseState (options : LayoutOptions) (machine : Machine) (indentation : Indentation)
    (flow : Flow) (contents : Doc) (broken : Bool) (states : Option (List Doc)) :
    Command.Yields options ⟨indentation, flow, group contents broken states⟩
      (machine.chooseState options indentation contents broken states) := by
  simp only [chooseState]
  split
  · next state found =>
    have hmem := List.mem_of_find?_eq_some found
    cases broken with
    | true => simp at hmem
    | false =>
      rcases List.mem_cons.1 hmem with rfl | hmem
      · exact .contents
      · cases states with
        | none => simp at hmem
        | some all => exact .state (List.mem_of_mem_tail hmem)
  · rcases mostExpanded_cases contents states with h | ⟨all, rfl, h⟩
    · rw [h]
      exact .contents
    · exact .state h

theorem holds_printGroup {indentation : Indentation} {flow : Flow} {contents : Doc} {broken : Bool}
    {states : Option (List Doc)}
    (h : (machine.printGroup options indentation flow contents broken states).Holds other) :
    machine.Holds other ∨
      Command.Yields options ⟨indentation, flow, group contents broken states⟩ other := by
  unfold printGroup at h
  split at h
  · rcases holds_push.1 h with h | h
    · obtain rfl := List.mem_singleton.1 h
      exact Or.inr .contents
    · exact Or.inl h
  · rcases holds_push.1 h with h | h
    · obtain rfl := List.mem_singleton.1 h
      exact Or.inr (yields_chooseState ..)
    · exact Or.inl h

theorem holds_printFill {indentation : Indentation} {flow : Flow} {parts : List Doc}
    (h : (machine.printFill options indentation flow parts).Holds other) :
    machine.Holds other ∨ Command.Yields options ⟨indentation, flow, fill parts⟩ other := by
  unfold printFill at h
  split at h
  · exact Or.inl h
  · rcases holds_push.1 h with h | h
    · obtain rfl := List.mem_singleton.1 h
      exact Or.inr (.fill (List.mem_singleton.2 rfl))
    · exact Or.inl h
  · rcases holds_push.1 h with h | h
    · simp only [List.mem_cons, List.not_mem_nil, or_false] at h
      rcases h with rfl | rfl
      · exact Or.inr (.fill (by simp))
      · exact Or.inr (.fill (by simp))
    · exact Or.inl h
  · next content separator following rest =>
    rcases holds_push.1 h with h | h
    · simp only [List.mem_cons, List.not_mem_nil, or_false] at h
      rcases h with rfl | rfl | rfl
      · exact Or.inr (.fill (by simp))
      · exact Or.inr (.fill (by simp))
      · exact Or.inr (.refill ⟨[content, separator], rfl⟩)
    · exact Or.inl h

theorem holds_printLine {indentation : Indentation} {flow : Flow} {hard soft literal : Bool}
    (h : (machine.printLine indentation flow hard soft literal).Holds other) :
    machine.Holds other ∨
      Command.Yields options ⟨indentation, flow, line hard soft literal⟩ other := by
  -- a line break that has to wait comes again as it is
  have hbreak : ∀ remeasure, ({ machine with remeasure := remeasure }.breakLine indentation flow
      hard soft literal).Holds other → machine.Holds other ∨
        Command.Yields options ⟨indentation, flow, line hard soft literal⟩ other := by
    intro remeasure h
    unfold breakLine at h
    split at h
    · rcases holds_push.1 (holds_release.1 h) with h | h
      · obtain rfl := List.mem_singleton.1 h
        exact Or.inr .line
      · exact Or.inl h
    · cases literal
      · exact Or.inl h
      · exact Or.inl h
  unfold printLine at h
  split at h
  · cases soft
    · exact Or.inl h
    · exact Or.inl h
  · exact hbreak true h
  · exact hbreak machine.remeasure h

/-- Carrying out a command adds only commands that stem from it. -/
theorem execute_yields (h : (machine.execute options command).Holds other) :
    machine.Holds other ∨ command.Yields options other := by
  obtain ⟨indentation, flow, doc⟩ := command
  -- one command in the place of another one
  have instead : ∀ {heir : Command}, Command.Yields options ⟨indentation, flow, doc⟩ heir →
      (machine.push [heir]).Holds other →
      machine.Holds other ∨ Command.Yields options ⟨indentation, flow, doc⟩ other := by
    intro heir hyields h
    rcases holds_push.1 h with h | h
    · obtain rfl := List.mem_singleton.1 h
      exact Or.inr hyields
    · exact Or.inl h
  cases doc with
  | text | trim | breakParent => exact Or.inl h
  | cursor => exact Or.inl (holds_mark.1 h)
  | concat parts =>
    rcases holds_push.1 h with h | h
    · obtain ⟨doc, hdoc, rfl⟩ := List.mem_map.1 h
      exact Or.inr (.concat hdoc)
    · exact Or.inl h
  | indent contents => exact instead .indent h
  | align alignment contents => exact instead .align h
  | ifBreak broken flat => exact instead .ifBreak h
  | group contents broken states => exact holds_printGroup h
  | fill parts => exact holds_printFill h
  | line hard soft literal => exact holds_printLine h
  | lineSuffix contents =>
    rcases h with h | h
    · exact Or.inl (Or.inl h)
    · rcases List.mem_cons.1 h with rfl | h
      · exact Or.inr .lineSuffix
      · exact Or.inl (Or.inr h)
  | lineSuffixBoundary =>
    simp only [execute] at h
    split at h
    · exact Or.inl h
    · exact instead .boundary h

/-- A step adds only commands that stem from one that there was. -/
theorem step_yields (hstep : machine.step options = some next) (h : next.Holds other) :
    machine.Holds other ∨ ∃ command, machine.Holds command ∧ command.Yields options other := by
  obtain ⟨command, rest, hcommands⟩ := exists_command hstep
  simp only [step, hcommands, Option.some.injEq] at hstep
  rw [← hstep, holds_settle] at h
  have hmem : command ∈ machine.commands := hcommands ▸ List.mem_cons_self ..
  rcases execute_yields h with (h | h) | h
  · exact Or.inl (Or.inl (hcommands ▸ List.mem_cons_of_mem _ h))
  · exact Or.inl (Or.inr h)
  · exact Or.inr ⟨command, Or.inl hmem, h⟩

/-- What commands pass on to those that stem from them holds of all commands that
a machine comes to. -/
theorem Reaches.all {start : Machine} {kept : Command → Prop}
    (hkept : ∀ {command other : Command}, kept command → command.Yields options other → kept other)
    (hstart : ∀ command, start.Holds command → kept command)
    (hreach : Reaches options start machine) : ∀ command, machine.Holds command → kept command := by
  induction hreach with
  | refl => exact hstart
  | step _ hstep ih =>
    intro command h
    rcases step_yields hstep h with h | ⟨origin, horigin, hyields⟩
    · exact ih command h
    · exact hkept (ih origin horigin) hyields

/-! ## The column as a number -/

/-- The column is a number that the machine can hold. -/
def Numbered (machine : Machine) : Prop :=
  machine.out.length < signedLimit → FitsSigned machine.column

theorem Numbered.draw (hm : machine.Numbered) (stroke : Stroke) :
    (stroke.draw machine).Numbered := by
  cases stroke with
  | nothing => exact hm
  | write content =>
    intro hlength
    simp only [Stroke.draw, write, out, List.length_append, List.length_reverse] at hlength ⊢
    split
    · have htake := (List.takeWhile_sublist (l := content.reverse) (· != '\n')).length_le
      rw [List.length_reverse] at htake
      unfold FitsSigned
      omega
    · exact fitsSigned_signedWord (by simpa [out, Nat.add_assoc] using hlength)
  | trim => exact fitsSigned_signedWord
  | start literal margin => exact fun _ => fitsSigned_signed64 margin.length
  | mark =>
    simp only [Stroke.draw, mark]
    split
    · exact hm
    · exact hm

theorem Reaches.numbered {doc : Doc} (h : Reaches options (initial doc) machine) :
    machine.Numbered := by
  induction h with
  | refl => exact fun _ => (by decide : FitsSigned 0)
  | step _ hstep ih =>
    obtain ⟨commands, suffixes, remeasure, rfl⟩ := step_draws hstep
    exact ih.draw _

end Machine

end LatexFormatter.Doc
