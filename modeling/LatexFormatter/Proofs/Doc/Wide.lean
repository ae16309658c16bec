import LatexFormatter.Proofs.Doc.Strands
import Mathlib.Tactic.Tauto

/-
  Layout with room to spare. Where a line is wide enough for everything that is
  still to be printed, every look ahead succeeds, so every group without a
  forced break and every piece of a fill is printed flat. The only lines that
  are taken are then the hard ones, and the text is the one way of writing the
  strands without wrapping (`render_flat`).

  No group of the document may have to break (`breaksNoGroup`), and every line
  that may be passed over lies inside a group or a fill (`isSheltered`).
-/

namespace LatexFormatter.Doc

/-! ## Documents without forced choices -/

mutual

/-- Whether nothing in the document forces a group around it to break. -/
def forcesNoBreak : Doc → Bool
  | breakParent => false
  | group contents broken _ => !broken && forcesNoBreak contents
  | concat parts => allForceNoBreak parts
  | fill parts => allForceNoBreak parts
  | indent contents => forcesNoBreak contents
  | align _ contents => forcesNoBreak contents
  | _ => true

def allForceNoBreak : List Doc → Bool
  | [] => true
  | doc :: rest => forcesNoBreak doc && allForceNoBreak rest

end

mutual

/-- Whether no group of the document has to break. -/
def breaksNoGroup : Doc → Bool
  | group contents broken _ => !broken && forcesNoBreak contents
  | concat parts => allBreakNoGroup parts
  | fill parts => allBreakNoGroup parts
  | indent contents => breaksNoGroup contents
  | align _ contents => breaksNoGroup contents
  | _ => true

def allBreakNoGroup : List Doc → Bool
  | [] => true
  | doc :: rest => breaksNoGroup doc && allBreakNoGroup rest

end

mutual

/-- Whether every line that may be passed over lies inside a group or a fill. -/
def isSheltered : Doc → Bool
  | line hard _ _ => hard
  | concat parts => allSheltered parts
  | indent contents => isSheltered contents
  | align _ contents => isSheltered contents
  | _ => true

def allSheltered : List Doc → Bool
  | [] => true
  | doc :: rest => isSheltered doc && allSheltered rest

end

theorem allForceNoBreak_iff {docs : List Doc} :
    allForceNoBreak docs = true ↔ ∀ doc ∈ docs, forcesNoBreak doc = true := by
  induction docs with
  | nil => simp [allForceNoBreak]
  | cons doc rest ih => simp [allForceNoBreak, ih]

theorem allBreakNoGroup_iff {docs : List Doc} :
    allBreakNoGroup docs = true ↔ ∀ doc ∈ docs, breaksNoGroup doc = true := by
  induction docs with
  | nil => simp [allBreakNoGroup]
  | cons doc rest ih => simp [allBreakNoGroup, ih]

theorem allSheltered_iff {docs : List Doc} :
    allSheltered docs = true ↔ ∀ doc ∈ docs, isSheltered doc = true := by
  induction docs with
  | nil => simp [allSheltered]
  | cons doc rest ih => simp [allSheltered, ih]

mutual

theorem breaksNoGroup_of_forcesNoBreak : ∀ doc : Doc,
    forcesNoBreak doc = true → breaksNoGroup doc = true
  | group _ _ _ => fun h => by simpa [forcesNoBreak, breaksNoGroup] using h
  | concat parts => fun h => allBreakNoGroup_of_allForceNoBreak parts h
  | fill parts => fun h => allBreakNoGroup_of_allForceNoBreak parts h
  | indent contents => fun h => breaksNoGroup_of_forcesNoBreak contents h
  | align _ contents => fun h => breaksNoGroup_of_forcesNoBreak contents h
  | breakParent => fun h => by simp [forcesNoBreak] at h
  | text _ | line _ _ _ | ifBreak _ _ | lineSuffix _ | lineSuffixBoundary | trim | cursor =>
    fun _ => by simp [breaksNoGroup]

theorem allBreakNoGroup_of_allForceNoBreak : ∀ docs : List Doc,
    allForceNoBreak docs = true → allBreakNoGroup docs = true
  | [] => fun _ => rfl
  | doc :: rest => fun h => by
    simp only [allForceNoBreak, Bool.and_eq_true] at h
    simp [allBreakNoGroup, breaksNoGroup_of_forcesNoBreak doc h.1,
      allBreakNoGroup_of_allForceNoBreak rest h.2]

end

mutual

/-- Where nothing forces a break, there is nothing to mark. -/
theorem propagateBreaks_of_forcesNoBreak : ∀ doc : Doc, isLinear doc = true →
    forcesNoBreak doc = true →
    propagateBreaks doc = (doc, false)
  | text _ | line _ _ _ => fun _ _ => rfl
  | group contents broken none => fun hl hs => by
    simp only [forcesNoBreak, Bool.and_eq_true, Bool.not_eq_true'] at hs
    simp [propagateBreaks, propagateBreaks_of_forcesNoBreak contents hl hs.2, hs.1]
  | concat parts => fun hl hs => by
    simp [propagateBreaks, propagateAll_of_allForceNoBreak parts hl hs]
  | fill parts => fun hl hs => by
    simp [propagateBreaks, propagateAll_of_allForceNoBreak parts hl hs]
  | indent contents => fun hl hs => by
    simp [propagateBreaks, propagateBreaks_of_forcesNoBreak contents hl hs]
  | align _ contents => fun hl hs => by
    simp [propagateBreaks, propagateBreaks_of_forcesNoBreak contents hl hs]
  | breakParent => fun _ hs => by simp [forcesNoBreak] at hs
  | group _ _ (some _) | ifBreak _ _ | lineSuffix _ | lineSuffixBoundary | trim | cursor =>
    fun hl => by simp [isLinear] at hl

theorem propagateAll_of_allForceNoBreak : ∀ docs : List Doc, allLinear docs = true →
    allForceNoBreak docs = true → propagateAll docs = (docs, false)
  | [] => fun _ _ => rfl
  | doc :: rest => fun hl hs => by
    simp only [allLinear, allForceNoBreak, Bool.and_eq_true] at hl hs
    simp [propagateAll, propagateBreaks_of_forcesNoBreak doc hl.1 hs.1,
      propagateAll_of_allForceNoBreak rest hl.2 hs.2]

end

mutual

/-- Where no group has to break, none is marked. -/
theorem propagateBreaks_of_breaksNoGroup : ∀ doc : Doc, isLinear doc = true →
    breaksNoGroup doc = true →
    (propagateBreaks doc).1 = doc
  | text _ | line _ _ _ | breakParent => fun _ _ => rfl
  | group contents broken none => fun hl hc => by
    simp only [breaksNoGroup, Bool.and_eq_true, Bool.not_eq_true'] at hc
    simp [propagateBreaks, propagateBreaks_of_forcesNoBreak contents hl hc.2, hc.1]
  | concat parts => fun hl hc => by
    simp [propagateBreaks, propagateAll_of_allBreakNoGroup parts hl hc]
  | fill parts => fun hl hc => by
    simp [propagateBreaks, propagateAll_of_allBreakNoGroup parts hl hc]
  | indent contents => fun hl hc => by
    simp [propagateBreaks, propagateBreaks_of_breaksNoGroup contents hl hc]
  | align _ contents => fun hl hc => by
    simp [propagateBreaks, propagateBreaks_of_breaksNoGroup contents hl hc]
  | group _ _ (some _) | ifBreak _ _ | lineSuffix _ | lineSuffixBoundary | trim | cursor =>
    fun hl => by simp [isLinear] at hl

theorem propagateAll_of_allBreakNoGroup : ∀ docs : List Doc, allLinear docs = true →
    allBreakNoGroup docs = true → (propagateAll docs).1 = docs
  | [] => fun _ _ => rfl
  | doc :: rest => fun hl hc => by
    simp only [allLinear, allBreakNoGroup, Bool.and_eq_true] at hl hc
    simp [propagateAll, propagateBreaks_of_breaksNoGroup doc hl.1 hc.1,
      propagateAll_of_allBreakNoGroup rest hl.2 hc.2]

end

/-! ## Columns -/

mutual

/-- The columns that a document takes when it is printed flat. -/
def breadth : Doc → Nat
  | text content => content.toList.length
  | concat parts => breadthAll parts
  | group contents _ _ => breadth contents
  | fill parts => breadthAll parts
  | indent contents => breadth contents
  | align _ contents => breadth contents
  | line _ _ _ => 1
  | _ => 0

def breadthAll : List Doc → Nat
  | [] => 0
  | doc :: rest => breadth doc + breadthAll rest

end

/-- The columns that commands take when they are carried out flat. -/
def commandBreadth : List Command → Nat
  | [] => 0
  | command :: rest => command.doc.breadth + commandBreadth rest

@[simp] theorem commandBreadth_append (xs ys : List Command) :
    commandBreadth (xs ++ ys) = commandBreadth xs + commandBreadth ys := by
  induction xs with
  | nil => simp [commandBreadth]
  | cons x xs ih => simp [commandBreadth, ih, Nat.add_assoc]

@[simp] theorem commandBreadth_all (indentation : Indentation) (flow : Flow) (docs : List Doc) :
    commandBreadth (Command.all indentation flow docs) = breadthAll docs := by
  induction docs with
  | nil => rfl
  | cons doc docs ih =>
    simp only [Command.all, List.map_cons, commandBreadth, breadthAll] at ih ⊢
    rw [ih]

/-- The columns a strand can bring a line to, its margin included. -/
def Strand.weight : Strand → Nat
  | text content => content.length
  | line _ _ _ margin => 1 + margin.length

/-- The columns several strands can bring a line to. -/
def weight : List Strand → Nat
  | [] => 0
  | strand :: rest => strand.weight + weight rest

@[simp] theorem weight_nil : weight [] = 0 := rfl

@[simp] theorem weight_cons (strand : Strand) (rest : List Strand) :
    weight (strand :: rest) = strand.weight + weight rest := rfl

@[simp] theorem weight_append (xs ys : List Strand) :
    weight (xs ++ ys) = weight xs + weight ys := by
  induction xs with
  | nil => simp
  | cons strand rest ih =>
    rw [List.cons_append, weight_cons, weight_cons, ih]
    omega

mutual

theorem breadth_le_weight (options : LayoutOptions) : ∀ (doc : Doc) (indentation : Indentation),
    doc.breadth ≤ weight (doc.strands options indentation)
  | text content, _ => by simp [breadth, strands, Strand.weight]
  | concat parts, i => by simpa [breadth, strands] using breadthAll_le_weight options parts i
  | group contents _ _, i => by simpa [breadth, strands] using breadth_le_weight options contents i
  | fill parts, i => by simpa [breadth, strands] using breadthAll_le_weight options parts i
  | indent contents, i => by simpa [breadth, strands] using breadth_le_weight options contents _
  | align _ contents, i => by simpa [breadth, strands] using breadth_le_weight options contents _
  | line _ _ _, _ => by simp [breadth, strands, Strand.weight]
  | ifBreak _ _, _ | lineSuffix _, _ | lineSuffixBoundary, _ | breakParent, _ | trim, _
  | cursor, _ => by simp [breadth]

theorem breadthAll_le_weight (options : LayoutOptions) :
    ∀ (docs : List Doc) (indentation : Indentation),
    breadthAll docs ≤ weight (strandsAll options indentation docs)
  | [], _ => by simp [breadthAll]
  | doc :: rest, i => by
    have h := breadth_le_weight options doc i
    have hrest := breadthAll_le_weight options rest i
    simp only [breadthAll, strandsAll, weight_append]
    omega

end

theorem commandBreadth_le_weight (options : LayoutOptions) (commands : List Command) :
    commandBreadth commands ≤ weight (commandStrands options commands) := by
  induction commands with
  | nil => simp [commandBreadth]
  | cons command rest ih =>
    have h := breadth_le_weight options command.doc command.indentation
    simp only [commandStrands, List.flatMap_cons, weight_append, commandBreadth] at ih ⊢
    omega

/-- A command for a linear document none of whose groups has to break. -/
def Command.Easy (command : Command) : Prop :=
  command.doc.isLinear = true ∧ command.doc.breaksNoGroup = true

theorem easy_all {indentation : Indentation} {flow : Flow} {docs : List Doc}
    (hl : allLinear docs = true) (hc : allBreakNoGroup docs = true) :
    ∀ command ∈ Command.all indentation flow docs, command.Easy := by
  intro command hmem
  obtain ⟨doc, hdoc, rfl⟩ := List.mem_map.1 hmem
  exact ⟨allLinear_iff.1 hl doc hdoc, allBreakNoGroup_iff.1 hc doc hdoc⟩

/-- What is narrow enough to be printed flat fits. -/
theorem fits_of_breadth (mustBeFlat : Bool) (width : Int) (kept : Bool) (trailing : Nat)
    (commands : List Command) (he : ∀ command ∈ commands, command.Easy)
    (hw : (commandBreadth commands : Int) ≤ width) :
    fits mustBeFlat width kept trailing commands = true := by
  -- looking ahead replaces a command by cheaper ones
  induction hcost : commandCost commands using Nat.strongRecOn
    generalizing width kept trailing commands with
  | ind n ih =>
  have next : ∀ (width : Int) (kept : Bool) (trailing : Nat) (later : List Command),
      commandCost later < n → (∀ command ∈ later, command.Easy) →
      (commandBreadth later : Int) ≤ width → fits mustBeFlat width kept trailing later = true :=
    fun width kept trailing later hlt he hw => ih _ hlt width kept trailing later he hw rfl
  rw [fits.eq_def, if_neg (by omega)]
  cases commands with
  | nil => rfl
  | cons command rest =>
    obtain ⟨indentation, flow, doc⟩ := command
    obtain ⟨⟨hl, hc⟩, hrest⟩ := List.forall_mem_cons.1 he
    simp only [commandBreadth, commandCost] at hw hcost
    simp only at hl hc
    cases doc with
    | text content =>
      simp only [breadth, cost] at hw hcost
      dsimp only
      split
      · have hlength := (List.takeWhile_sublist (l := content.toList) (· != '\n')).length_le
        rw [decide_eq_true_eq]
        omega
      · exact next _ _ _ rest (by omega) hrest (by omega)
    | concat parts =>
      simp only [breadth, cost] at hw hcost
      refine next _ _ _ _ ?_ (List.forall_mem_append.2 ⟨easy_all hl hc, hrest⟩) ?_
      · rw [commandCost_append, commandCost_all]
        omega
      · rw [commandBreadth_append, commandBreadth_all]
        exact hw
    | fill parts =>
      simp only [breadth, cost] at hw hcost
      refine next _ _ _ _ ?_ (List.forall_mem_append.2 ⟨easy_all hl hc, hrest⟩) ?_
      · rw [commandCost_append, commandCost_all]
        omega
      · rw [commandBreadth_append, commandBreadth_all]
        exact hw
    | indent contents =>
      simp only [breadth, cost] at hw hcost
      refine next _ _ _ _ ?_ (List.forall_mem_cons.2 ⟨⟨hl, hc⟩, hrest⟩) hw
      simp only [commandCost]
      omega
    | align alignment contents =>
      simp only [breadth, cost] at hw hcost
      refine next _ _ _ _ ?_ (List.forall_mem_cons.2 ⟨⟨hl, hc⟩, hrest⟩) hw
      simp only [commandCost]
      omega
    | group contents broken states =>
      cases states with
      | some states => simp [isLinear] at hl
      | none =>
        simp only [breaksNoGroup, Bool.and_eq_true, Bool.not_eq_true'] at hc
        obtain ⟨rfl, hs⟩ := hc
        simp only [breadth, cost] at hw hcost
        have hcontents : (⟨indentation, flow, contents⟩ : Command).Easy :=
          ⟨hl, breaksNoGroup_of_forcesNoBreak contents hs⟩
        have hrec := next width kept trailing (⟨indentation, flow, contents⟩ :: rest)
          (by simp only [commandCost]; omega) (List.forall_mem_cons.2 ⟨hcontents, hrest⟩) hw
        cases flow <;> simpa [Flow.inside, Flow.choose, mostExpanded] using hrec
    | line hard soft literal =>
      simp only [breadth, cost] at hw hcost
      dsimp only
      split
      · rfl
      · split
        · exact next _ _ _ rest (by omega) hrest (by omega)
        · exact next _ _ _ rest (by omega) hrest (by omega)
    | breakParent =>
      simp only [breadth, cost] at hw hcost
      exact next _ _ _ rest (by omega) hrest (by omega)
    | ifBreak _ _ | lineSuffix _ | lineSuffixBoundary | trim | cursor => simp [isLinear] at hl

/-! ## The machine with room to spare -/

namespace Machine

/-- The line has room for the strands of a command that has been taken off the
stack and of all that are left there, and no line that may be passed over is
going to be taken. -/
structure Wide (options : LayoutOptions) (given : List Strand) (machine : Machine) : Prop where
  linear : machine.Linear
  unforced : ∀ command ∈ machine.commands, command.doc.breaksNoGroup = true
  sheltered : ∀ command ∈ machine.commands,
    command.flow = .flat ∨ command.doc.isSheltered = true
  column : 0 ≤ machine.column
  room : machine.column + weight (given ++ commandStrands options machine.commands)
    ≤ signed64 options.printWidth

variable {options : LayoutOptions} {given : List Strand} {machine : Machine}

theorem Wide.easy (hm : machine.Wide options given) : ∀ command ∈ machine.commands, command.Easy :=
  fun command h => ⟨hm.linear.commands command h, hm.unforced command h⟩

theorem Wide.room_eq (hm : machine.Wide options given) :
    machine.room options = signed64 options.printWidth - machine.column := by
  have hroom := hm.room
  have hpos := hm.column
  exact hold_of_fits (fitsSigned_of_le options.printWidth (by omega) (by omega)) machine

theorem Wide.withRemeasure (hm : machine.Wide options given) (remeasure : Bool) :
    ({ machine with remeasure := remeasure } : Machine).Wide options given :=
  ⟨hm.linear.withRemeasure remeasure, hm.unforced, hm.sheltered, hm.column, hm.room⟩

theorem Wide.push (hm : machine.Wide options given) {commands : List Command}
    (he : ∀ command ∈ commands, command.Easy)
    (hs : ∀ command ∈ commands, command.flow = .flat ∨ command.doc.isSheltered = true)
    (hg : commandStrands options commands = given) : (machine.push commands).Wide options [] := by
  refine ⟨hm.linear.push fun command h => (he command h).1, ?_, ?_, hm.column, ?_⟩
  · exact List.forall_mem_append.2 ⟨fun command h => (he command h).2, hm.unforced⟩
  · exact List.forall_mem_append.2 ⟨hs, hm.sheltered⟩
  · have hroom := hm.room
    rw [← hg] at hroom
    simpa [Machine.push, commandStrands] using hroom

/-- Going on after the strands of a command have been written. -/
theorem Wide.written (hm : machine.Wide options given) {next : Machine}
    (hcommands : next.commands = machine.commands) (hlinear : next.Linear)
    (hpos : 0 ≤ next.column) (hcolumn : next.column ≤ machine.column + weight given) :
    next.Wide options [] := by
  refine ⟨hlinear, hcommands ▸ hm.unforced, hcommands ▸ hm.sheltered, hpos, ?_⟩
  have hroom := hm.room
  rw [weight_append] at hroom
  rw [hcommands, List.nil_append]
  push_cast at hroom
  omega

theorem Wide.hasRoom (hm : machine.Wide options given) {command : Command} (he : command.Easy)
    (hw : command.doc.breadth ≤ weight given) : machine.hasRoom options command = true := by
  refine fits_of_breadth _ _ _ _ _ (List.forall_mem_cons.2 ⟨he, hm.easy⟩) ?_
  have hroom := hm.room
  have hrest := commandBreadth_le_weight options machine.commands
  rw [weight_append] at hroom
  push_cast at hroom
  rw [hm.room_eq]
  simp only [commandBreadth]
  omega

theorem Wide.hasRoomAlone (hm : machine.Wide options given) {command : Command} (he : command.Easy)
    (hw : command.doc.breadth ≤ weight given) : machine.hasRoomAlone options command = true := by
  apply fits_of_breadth _ _ _ _ _ (by simpa using he)
  have hroom := hm.room
  rw [weight_append] at hroom
  push_cast at hroom
  rw [hm.room_eq]
  simp only [commandBreadth]
  omega

/-- A group that need not break is printed flat. -/
theorem Wide.printGroup (indentation : Indentation) (flow : Flow) {contents : Doc}
    (hm : machine.Wide options (contents.strands options indentation))
    (hl : contents.isLinear = true) (hs : contents.forcesNoBreak = true) :
    (machine.printGroup options indentation flow contents false none).Wide options [] := by
  have heasy : ∀ flow, (⟨indentation, flow, contents⟩ : Command).Easy :=
    fun _ => ⟨hl, breaksNoGroup_of_forcesNoBreak contents hs⟩
  have hflat : ∀ remeasure, ({ machine with remeasure := remeasure }.push
      [⟨indentation, .flat, contents⟩]).Wide options [] := by
    intro remeasure
    apply (hm.withRemeasure remeasure).push (by simpa using heasy .flat) (by simp)
    simp [commandStrands]
  unfold Machine.printGroup
  split
  · next hflow =>
    simp only [Bool.and_eq_true, beq_iff_eq] at hflow
    rw [hflow.1]
    exact hflat machine.remeasure
  · have hroom := (hm.withRemeasure false).hasRoom (heasy .flat)
      (breadth_le_weight options contents indentation)
    have hchoose : chooseState options { machine with remeasure := false } indentation contents
        false none = ⟨indentation, .flat, contents⟩ := by
      simp [chooseState, hroom]
    dsimp only
    rw [hchoose]
    exact hflat false

/-- The first piece of a fill and its separator are printed flat. -/
theorem Wide.printFill (indentation : Indentation) (flow : Flow) {parts : List Doc}
    (hm : machine.Wide options (strandsAll options indentation parts))
    (hl : allLinear parts = true) (hc : allBreakNoGroup parts = true) :
    (machine.printFill options indentation flow parts).Wide options [] := by
  have heasy : ∀ doc ∈ parts, ∀ flow, (⟨indentation, flow, doc⟩ : Command).Easy :=
    fun doc h _ => ⟨allLinear_iff.1 hl doc h, allBreakNoGroup_iff.1 hc doc h⟩
  have hwide := breadthAll_le_weight options parts indentation
  unfold Machine.printFill
  split
  · exact ⟨hm.linear, hm.unforced, hm.sheltered, hm.column, hm.room⟩
  · next content =>
    have hroom := hm.hasRoomAlone (heasy content (by simp) .flat)
      (by simpa [breadthAll] using hwide)
    simp only [hroom, if_true]
    refine hm.push ?_ (by simp) (by simp [commandStrands, strandsAll])
    simpa using heasy content (by simp) .flat
  · next content separator =>
    have hroom := hm.hasRoomAlone (heasy content (by simp) .flat)
      (by simp only [breadthAll] at hwide; simp only; omega)
    simp only [hroom, if_true]
    refine hm.push ?_ (by simp) (by simp [commandStrands, strandsAll])
    simpa using ⟨heasy content (by simp) .flat, heasy separator (by simp) .flat⟩
  · next content separator third rest =>
    have hboth : (⟨indentation, .flat, concat [content, separator, third]⟩ : Command).Easy := by
      refine ⟨?_, ?_⟩
      · rw [isLinear, allLinear_iff]
        intro doc hdoc
        exact (heasy doc (by simp at hdoc ⊢; tauto) .flat).1
      · rw [breaksNoGroup, allBreakNoGroup_iff]
        intro doc hdoc
        exact (heasy doc (by simp at hdoc ⊢; tauto) .flat).2
    have hroom := hm.hasRoomAlone hboth
      (by simp only [breadth, breadthAll] at hwide ⊢; omega)
    have hfill : (⟨indentation, flow, fill (third :: rest)⟩ : Command).Easy := by
      simp only [allLinear, allBreakNoGroup, Bool.and_eq_true] at hl hc
      simp [Command.Easy, isLinear, breaksNoGroup, allLinear, allBreakNoGroup, hl, hc]
    simp only [hroom, Bool.true_or, if_true]
    refine hm.push ?_ (by simp [isSheltered]) (by simp [commandStrands, strandsAll, strands])
    simpa using ⟨heasy content (by simp) .flat, heasy separator (by simp) .flat, hfill⟩

/-- Text that there is room for moves the column no further than its length. -/
theorem Wide.column_write (hm : machine.Wide options given) (content : List Char)
    (hw : content.length ≤ weight given) :
    0 ≤ (machine.write content).column ∧
      (machine.write content).column ≤ machine.column + content.length := by
  have hpos := hm.column
  have hroom := hm.room
  rw [weight_append] at hroom
  push_cast at hroom
  simp only [Machine.write]
  split
  · have hlength := (List.takeWhile_sublist (l := content.reverse) (· != '\n')).length_le
    rw [List.length_reverse] at hlength
    omega
  · rw [hold_of_fits (fitsSigned_of_le options.printWidth (by omega) (by omega))]
    omega

/-- A line break starts the line with its margin. -/
theorem column_breakLine (hm : machine.Linear) (indentation : Indentation) (flow : Flow)
    (hard soft literal : Bool) :
    (machine.breakLine indentation flow hard soft literal).column
      = signed64 (indentation.lineMargin literal).length := by
  cases literal <;> simp [breakLine, hm.suffixes, startLine, Indentation.lineMargin]

theorem Wide.printLine (indentation : Indentation) {flow : Flow} {hard soft literal : Bool}
    (hm : machine.Wide options [.line hard soft literal (indentation.lineMargin literal)])
    (hw : hard = true ∨ flow = .flat) :
    (machine.printLine indentation flow hard soft literal).Wide options [] := by
  have hadvances : Advances options false _ machine
      (machine.printLine indentation flow hard soft literal) :=
    advances_printLine hm.linear (Or.inr hw)
  -- a line that is taken
  have hbreak : ∀ next : Machine, next.commands = machine.commands →
      next.column = signed64 (indentation.lineMargin literal).length → next.Linear →
      next.Wide options [] := by
    intro next hcommands hcolumn hlinear
    have hroom := hm.room
    have hlimit := (fitsSigned_signed64 options.printWidth).2
    have hpos := hm.column
    simp only [List.cons_append, weight_cons, Strand.weight] at hroom
    push_cast at hroom
    -- the margin is within the width, so it is the same as a signed number
    have hsigned := signed64_of_lt (n := (indentation.lineMargin literal).length) (by omega)
    apply hm.written hcommands hlinear (by omega)
    simp only [weight_cons, weight_nil, Strand.weight]
    push_cast
    omega
  have hcommands : ∀ machine : Machine, machine.suffixes = [] →
      (machine.breakLine indentation flow hard soft literal).commands = machine.commands := by
    intro machine hx
    cases literal <;> simp [breakLine, hx, startLine, Machine.trim]
  have hlinear := hadvances.1
  unfold Machine.printLine at hlinear ⊢
  split
  · -- a line that is passed over is a space, or nothing
    have hspace := hm.column_write [' ']
      (by
        simp only [weight_cons, weight_nil, Strand.weight, List.length_cons, List.length_nil]
        omega)
    refine hm.written ?_ ?_ ?_ ?_
    · cases soft <;> rfl
    · exact hlinear
    · cases soft
      · exact hspace.1
      · exact hm.column
    · cases soft
      · have := hspace.2
        simp only [weight_cons, weight_nil, Strand.weight]
        simp only [List.length_cons, List.length_nil] at this
        push_cast at this ⊢
        exact Int.le_trans this (by omega)
      · exact Int.le_add_of_nonneg_right (Int.natCast_nonneg _)
  · exact hbreak _ (hcommands _ hm.linear.suffixes)
      (column_breakLine (hm.linear.withRemeasure true) _ _ _ _ _) hlinear
  · exact hbreak _ (hcommands _ hm.linear.suffixes) (column_breakLine hm.linear _ _ _ _ _) hlinear

/-- Carrying out a command leaves room for the rest. -/
theorem Wide.execute {command : Command}
    (hm : machine.Wide options (strands options command.indentation command.doc))
    (he : command.Easy) (hs : command.flow = .flat ∨ command.doc.isSheltered = true) :
    (machine.execute options command).Wide options [] := by
  obtain ⟨indentation, flow, doc⟩ := command
  obtain ⟨hl, hc⟩ := he
  simp only at hl hc hs hm
  cases doc with
  | text content =>
    obtain ⟨hpos, hle⟩ := hm.column_write content.toList
      (by simp [strands, Strand.weight])
    refine hm.written rfl ⟨hm.linear.settled, hm.linear.suffixes, hm.linear.commands⟩ hpos ?_
    simpa [strands, Strand.weight, Machine.execute] using hle
  | concat parts =>
    refine hm.push (easy_all hl hc) ?_ (commandStrands_all options indentation flow parts)
    intro command hmem
    obtain ⟨doc, hdoc, rfl⟩ := List.mem_map.1 hmem
    rcases hs with hs | hs
    · exact Or.inl hs
    · exact Or.inr (allSheltered_iff.1 hs doc hdoc)
  | group contents broken states =>
    cases states with
    | some states => simp [isLinear] at hl
    | none =>
      simp only [breaksNoGroup, Bool.and_eq_true, Bool.not_eq_true'] at hc
      obtain ⟨rfl, hunforced⟩ := hc
      exact Wide.printGroup indentation flow hm hl hunforced
  | fill parts => exact Wide.printFill indentation flow hm hl hc
  | indent contents =>
    refine hm.push (by simpa [Command.Easy] using ⟨hl, hc⟩) ?_ (by simp [commandStrands, strands])
    simpa [isSheltered] using hs
  | align alignment contents =>
    refine hm.push (by simpa [Command.Easy] using ⟨hl, hc⟩) ?_ (by simp [commandStrands, strands])
    simpa [isSheltered] using hs
  | line hard soft literal =>
    apply Wide.printLine indentation hm
    simpa [isSheltered, or_comm] using hs
  | breakParent => exact hm.written rfl hm.linear hm.column (by simp [strands, Machine.execute])
  | ifBreak _ _ | lineSuffix _ | lineSuffixBoundary | trim | cursor => simp [isLinear] at hl

/-- One step takes no line but hard ones, and leaves room for the rest. -/
theorem Wide.step {next : Machine} (hm : machine.Wide options [])
    (h : machine.step options = some next) :
    next.Wide options [] ∧ Advances options false [] machine next := by
  have hw : ∀ command ∈ machine.commands.head?, ∀ hard soft literal,
      command.doc = line hard soft literal → hard = true ∨ command.flow = .flat := by
    intro command hmem hard soft literal hdoc
    have hsheltered := hm.sheltered command (List.mem_of_mem_head? hmem)
    rw [hdoc] at hsheltered
    simpa [isSheltered, or_comm] using hsheltered
  refine ⟨?_, step_advances false hm.linear (Or.inr hw) h⟩
  unfold Machine.step at h
  split at h
  · simp at h
  · next command rest hcs =>
    have hmem : command ∈ machine.commands := by simp [hcs]
    have hrest : ∀ other ∈ rest, other ∈ machine.commands := by
      intro other hother
      simp [hcs, hother]
    have htaken : ({ machine with commands := rest } : Machine).Wide options
        (strands options command.indentation command.doc) := by
      refine ⟨⟨hm.linear.settled, hm.linear.suffixes,
          fun c hc => hm.linear.commands c (hrest c hc)⟩,
        fun c hc => hm.unforced c (hrest c hc), fun c hc => hm.sheltered c (hrest c hc),
        hm.column, ?_⟩
      have hroom := hm.room
      rw [hcs] at hroom
      simpa [commandStrands] using hroom
    have hwide := htaken.execute (hm.easy command hmem) (hm.sheltered command hmem)
    rw [hwide.linear.settle_eq, Option.some.injEq] at h
    exact h ▸ hwide

end Machine

/-- With room to spare, a sheltered document with no group to break is written
without wrapping. -/
theorem render_flat (options : LayoutOptions) {doc : Doc} (hl : doc.isLinear = true)
    (hc : doc.breaksNoGroup = true) (hs : doc.isSheltered = true)
    (hw : (weight (doc.strands options {}) : Int) ≤ signed64 options.printWidth) :
    ∃ out, (doc.render options).text = String.ofList out.reverse ∧
      Written false (doc.strands options {}) [] out := by
  have hwide : (initial doc).Wide options [] := by
    refine ⟨initial_linear hl, ?_, ?_, Int.le_refl 0, ?_⟩
    · simpa [initial, propagateBreaks_of_breaksNoGroup doc hl hc] using hc
    · simpa [initial, propagateBreaks_of_breaksNoGroup doc hl hc] using hs
    · simpa [initial, commandStrands, propagateBreaks_of_breaksNoGroup doc hl hc] using hw
  refine ⟨((initial doc).run options).out, rfl, ?_⟩
  have hrun := Machine.run_written_of options false (Machine.Wide options [])
    (fun _ _ hm h => hm.step h) (initial doc) hwide
  simpa [initial, commandStrands, Machine.out,
    propagateBreaks_of_breaksNoGroup doc hl hc] using hrun

end LatexFormatter.Doc