import LatexFormatter.Doc.Layout

/-
  The order in which a document is written. A document that keeps nothing back,
  chooses between no alternatives and removes nothing is linear: its text and
  its lines come out from left to right, whatever the layout decides. Taken
  apart like that it is a list of strands, and all the layout can do is to take
  or to pass over the lines that are not hard (`Written`).

  `Machine.run_written` says that this is all it does, for every machine and
  every width. What holds of everything that `Written` allows therefore holds
  of the printed text.
-/

namespace LatexFormatter.Doc

/-! ## Linear documents -/

mutual

/-- Whether a document is text and lines, arranged one after the other. -/
def isLinear : Doc → Bool
  | text _ => true
  | concat parts => allLinear parts
  | group contents _ none => isLinear contents
  | group _ _ (some _) => false
  | fill parts => allLinear parts
  | indent contents => isLinear contents
  | align _ contents => isLinear contents
  | line _ _ _ => true
  | ifBreak _ _ => false
  | lineSuffix _ => false
  | lineSuffixBoundary => false
  | breakParent => true
  | trim => false
  | cursor => false

/-- Whether all of several documents are linear. -/
def allLinear : List Doc → Bool
  | [] => true
  | doc :: rest => isLinear doc && allLinear rest

end

theorem allLinear_iff {docs : List Doc} :
    allLinear docs = true ↔ ∀ doc ∈ docs, isLinear doc = true := by
  induction docs with
  | nil => simp [allLinear]
  | cons doc rest ih => simp [allLinear, ih]

/-- A piece of text, or a place where a line may end together with the margin of
the line after it. -/
inductive Strand where
  | text (content : List Char)
  | line (hard soft literal : Bool) (margin : Margin)

/-- The margin of the line that a line break starts. -/
def Indentation.lineMargin (literal : Bool) (indentation : Indentation) : Margin :=
  if literal then indentation.roots.headD {} else indentation.margin

mutual

/-- The strands of a linear document, in order. -/
def strands (options : LayoutOptions) (indentation : Indentation) : Doc → List Strand
  | text content => [.text content.toList]
  | concat parts => strandsAll options indentation parts
  | group contents _ _ => strands options indentation contents
  | fill parts => strandsAll options indentation parts
  | indent contents => strands options (indentation.indent options) contents
  | align alignment contents => strands options (indentation.align options alignment) contents
  | line hard soft literal => [.line hard soft literal (indentation.lineMargin literal)]
  | ifBreak _ _ => []
  | lineSuffix _ => []
  | lineSuffixBoundary => []
  | breakParent => []
  | trim => []
  | cursor => []

/-- The strands of several documents, one after the other. -/
def strandsAll (options : LayoutOptions) (indentation : Indentation) : List Doc → List Strand
  | [] => []
  | doc :: rest => strands options indentation doc ++ strandsAll options indentation rest

end

@[simp] theorem strandsAll_append (options : LayoutOptions) (indentation : Indentation)
    (xs ys : List Doc) :
    strandsAll options indentation (xs ++ ys)
      = strandsAll options indentation xs ++ strandsAll options indentation ys := by
  induction xs with
  | nil => simp [strandsAll]
  | cons x xs ih => simp [strandsAll, ih]

/-! ## What can be written -/

namespace Strand

/-- Whether a line ends here in any case. -/
def isHard : Strand → Bool
  | text _ => false
  | line hard _ _ _ => hard

/-- Writes a strand behind the output, which is given last character first. A
line that is taken removes the blanks before it unless it is literal. -/
def put (broken : Bool) (out : List Char) : Strand → List Char
  | text content => content.reverse ++ out
  | line _ soft literal margin =>
    if broken then
      margin.value.reverse ++ '\n' :: (if literal then out else out.dropWhile isSpace)
    else if soft then out else ' ' :: out

end Strand

/-- What strands can turn an output into. Hard lines are taken; the others may be
taken only where wrapping is allowed. -/
inductive Written (wrap : Bool) : List Strand → List Char → List Char → Prop
  | nil (out : List Char) : Written wrap [] out out
  | cons {strand : Strand} {rest : List Strand} {out final : List Char} (choice : Bool)
      (h : Written wrap rest (strand.put (strand.isHard || (wrap && choice)) out) final) :
      Written wrap (strand :: rest) out final

namespace Written

variable {wrap : Bool} {xs ys : List Strand} {out mid final : List Char}

theorem text (content : List Char) : Written wrap [.text content] out (content.reverse ++ out) :=
  cons false (nil _)

theorem append (hx : Written wrap xs out mid) (hy : Written wrap ys mid final) :
    Written wrap (xs ++ ys) out final := by
  induction hx with
  | nil => exact hy
  | cons choice _ ih => exact cons choice (ih hy)

theorem of_append (h : Written wrap (xs ++ ys) out final) :
    ∃ mid, Written wrap xs out mid ∧ Written wrap ys mid final := by
  induction xs generalizing out with
  | nil => exact ⟨out, nil out, h⟩
  | cons x xs ih =>
    cases h with
    | cons choice h =>
      obtain ⟨mid, hx, hy⟩ := ih h
      exact ⟨mid, cons choice hx, hy⟩

theorem append_iff :
    Written wrap (xs ++ ys) out final
      ↔ ∃ mid, Written wrap xs out mid ∧ Written wrap ys mid final :=
  ⟨of_append, fun ⟨_, hx, hy⟩ => hx.append hy⟩

theorem nil_iff : Written wrap [] out final ↔ final = out := by
  refine ⟨fun h => ?_, fun h => h ▸ nil _⟩
  cases h
  rfl

theorem text_iff {content : List Char} :
    Written wrap [.text content] out final ↔ final = content.reverse ++ out := by
  refine ⟨fun h => ?_, fun h => h ▸ text content⟩
  cases h with
  | cons choice h => exact nil_iff.1 h

/-- Where nothing wraps there is only one way to write. -/
theorem unique (h : Written false xs out mid) (h' : Written false xs out final) : mid = final := by
  induction h with
  | nil => exact (nil_iff.1 h').symm
  | cons choice _ ih =>
    cases h' with
    | cons choice' h' =>
      simp only [Bool.false_and] at ih h'
      exact ih h'

/-- Nor is there anything to choose about hard lines. -/
theorem unique_of_hard (hx : ∀ strand ∈ xs, strand.isHard = true) (h : Written wrap xs out mid)
    (h' : Written wrap xs out final) : mid = final := by
  induction h with
  | nil => exact (nil_iff.1 h').symm
  | cons choice _ ih =>
    have hhard := hx _ (List.mem_cons_self ..)
    cases h' with
    | cons choice' h' =>
      simp only [hhard, Bool.true_or] at ih h'
      exact ih (fun strand hmem => hx strand (List.mem_cons_of_mem _ hmem)) h'

end Written

/-! ## The machine writes nothing else -/

/-- The strands that commands are still to write. -/
def commandStrands (options : LayoutOptions) (commands : List Command) : List Strand :=
  commands.flatMap fun command => strands options command.indentation command.doc

theorem commandStrands_all (options : LayoutOptions) (indentation : Indentation) (flow : Flow)
    (docs : List Doc) :
    commandStrands options (Command.all indentation flow docs)
      = strandsAll options indentation docs := by
  induction docs with
  | nil => rfl
  | cons doc rest ih =>
    simp only [commandStrands, Command.all, List.map_cons, List.flatMap_cons, strandsAll] at ih ⊢
    rw [ih]

namespace Machine

/-- A machine that has only linear documents before it. -/
structure Linear (machine : Machine) : Prop where
  settled : machine.settled = []
  suffixes : machine.suffixes = []
  commands : ∀ command ∈ machine.commands, command.doc.isLinear = true

theorem Linear.withRemeasure {machine : Machine} (hm : machine.Linear) (remeasure : Bool) :
    ({ machine with remeasure := remeasure } : Machine).Linear :=
  ⟨hm.settled, hm.suffixes, hm.commands⟩

theorem Linear.out_eq {machine : Machine} (hm : machine.Linear) : machine.out = machine.tail := by
  simp [out, hm.settled]

/-- Commands that take the place of the topmost one without writing anything. -/
theorem Linear.push {machine : Machine} (hm : machine.Linear) {commands : List Command}
    (hc : ∀ command ∈ commands, command.doc.isLinear = true) : (machine.push commands).Linear := by
  refine ⟨hm.settled, hm.suffixes, ?_⟩
  intro command hmem
  rcases List.mem_append.1 hmem with h | h
  · exact hc command h
  · exact hm.commands command h

/-- What carrying out one command does to a linear machine: some strands of the
command are written, and the commands that replace it stand for the others. -/
def Advances (options : LayoutOptions) (wrap : Bool) (given : List Strand)
    (machine next : Machine) : Prop :=
  next.Linear ∧ ∃ used,
    given ++ commandStrands options machine.commands
      = used ++ commandStrands options next.commands ∧
    Written wrap used machine.out next.out

variable {options : LayoutOptions} {wrap : Bool} {machine : Machine}

theorem advances_push (hm : machine.Linear) {commands : List Command} {given : List Strand}
    (hc : ∀ command ∈ commands, command.doc.isLinear = true)
    (hg : commandStrands options commands = given) :
    Advances options wrap given machine (machine.push commands) := by
  refine ⟨hm.push hc, [], ?_, Written.nil _⟩
  simp [Machine.push, commandStrands, ← hg]

/-- Writing a single strand, with the commands left as they are. -/
theorem advances_put (hm : machine.Linear) {next : Machine} (strand : Strand) (choice : Bool)
    (hc : next.commands = machine.commands) (hs : next.settled = []) (hx : next.suffixes = [])
    (ho : next.tail = strand.put (strand.isHard || (wrap && choice)) machine.tail) :
    Advances options wrap [strand] machine next := by
  have hn : next.Linear := ⟨hs, hx, fun command h => hm.commands command (hc ▸ h)⟩
  refine ⟨hn, [strand], by rw [hc], Written.cons choice ?_⟩
  rw [Written.nil_iff, hn.out_eq, hm.out_eq, ho]

theorem advances_write (hm : machine.Linear) (content : List Char) :
    Advances options wrap [.text content] machine (machine.write content) :=
  advances_put hm (.text content) false rfl hm.settled hm.suffixes rfl

theorem advances_breakLine (hm : machine.Linear) {indentation : Indentation} {flow : Flow}
    {hard soft literal : Bool} (hb : hard = true ∨ wrap = true) :
    Advances options wrap [.line hard soft literal (indentation.lineMargin literal)] machine
      (machine.breakLine indentation flow hard soft literal) := by
  have hs : machine.suffixes.isEmpty = true := by simp [hm.suffixes]
  have hb : ((Strand.line hard soft literal (indentation.lineMargin literal)).isHard
      || (wrap && true)) = true := by
    simpa [Strand.isHard] using hb
  apply advances_put hm _ true
  · cases literal <;> simp [breakLine, hs, trim, startLine]
  · cases literal <;> simp [breakLine, hs, trim, startLine, hm.settled]
  · cases literal <;> simp [breakLine, trim, startLine, hm.suffixes]
  · rw [hb]
    cases literal <;> simp [Strand.put, breakLine, hs, trim, startLine, Indentation.lineMargin]

theorem advances_printLine (hm : machine.Linear) {indentation : Indentation} {flow : Flow}
    {hard soft literal : Bool} (hw : wrap = true ∨ hard = true ∨ flow = .flat) :
    Advances options wrap [.line hard soft literal (indentation.lineMargin literal)] machine
      (machine.printLine indentation flow hard soft literal) := by
  unfold printLine
  split
  · -- a flat line that is not hard is a space, or nothing
    apply advances_put hm _ false
    · cases soft <;> rfl
    · cases soft <;> exact hm.settled
    · cases soft <;> exact hm.suffixes
    · cases soft <;> simp [Strand.put, Strand.isHard, write]
  · exact advances_breakLine (hm.withRemeasure true) (Or.inl rfl)
  · apply advances_breakLine hm
    rcases hw with h | h | h
    · exact Or.inr h
    · exact Or.inl h
    · simp at h

/-- A group without further states prints its contents, one way or the other. -/
theorem printGroup_eq (options : LayoutOptions) (machine : Machine) (indentation : Indentation)
    (flow : Flow) (contents : Doc) (broken : Bool) :
    ∃ flow' remeasure, machine.printGroup options indentation flow contents broken none
      = { machine with remeasure := remeasure }.push [⟨indentation, flow', contents⟩] := by
  unfold printGroup
  split
  · exact ⟨_, machine.remeasure, rfl⟩
  · simp only [chooseState]
    split
    · next state found =>
      have hstate : state = contents := by
        have hmem := List.mem_of_find?_eq_some found
        cases broken <;> simp at hmem
        exact hmem
      exact ⟨.flat, false, by rw [hstate]⟩
    · exact ⟨.broken, false, rfl⟩

/-- A fill takes itself apart and writes nothing. -/
theorem printFill_eq (options : LayoutOptions) (machine : Machine) (indentation : Indentation)
    (flow : Flow) (parts : List Doc) :
    ∃ commands, machine.printFill options indentation flow parts = machine.push commands ∧
      commandStrands options commands = strandsAll options indentation parts ∧
      (allLinear parts = true → ∀ command ∈ commands, command.doc.isLinear = true) := by
  unfold printFill
  split
  · exact ⟨[], rfl, rfl, by simp⟩
  · exact ⟨_, rfl, by simp [commandStrands, strandsAll], by simp [allLinear]⟩
  · exact ⟨_, rfl, by simp [commandStrands, strandsAll], by simp [allLinear]⟩
  · refine ⟨_, rfl, by simp [commandStrands, strandsAll, strands], ?_⟩
    intro h
    simp only [allLinear, Bool.and_eq_true] at h
    simp [isLinear, allLinear, h]

theorem execute_advances (options : LayoutOptions) (hm : machine.Linear) {command : Command}
    (hc : command.doc.isLinear = true)
    (hw : wrap = true ∨ ∀ hard soft literal, command.doc = line hard soft literal →
      hard = true ∨ command.flow = .flat) :
    Advances options wrap (strands options command.indentation command.doc) machine
      (machine.execute options command) := by
  obtain ⟨indentation, flow, doc⟩ := command
  cases doc with
  | text content => exact advances_write hm content.toList
  | concat parts =>
    apply advances_push hm
    · intro command hmem
      obtain ⟨doc, hdoc, rfl⟩ := List.mem_map.1 hmem
      exact allLinear_iff.1 hc doc hdoc
    · exact commandStrands_all options indentation flow parts
  | group contents broken states =>
    cases states with
    | some states => simp [isLinear] at hc
    | none =>
      obtain ⟨flow', remeasure, h⟩ :=
        printGroup_eq options machine indentation flow contents broken
      simp only [execute, h]
      refine advances_push (hm.withRemeasure remeasure) ?_ ?_
      · simpa [isLinear] using hc
      · simp [commandStrands, strands]
  | fill parts =>
    obtain ⟨commands, h, hs, hl⟩ := printFill_eq options machine indentation flow parts
    simp only [execute, h]
    exact advances_push hm (hl hc) hs
  | indent contents =>
    apply advances_push hm
    · simpa [isLinear] using hc
    · simp [commandStrands, strands]
  | align alignment contents =>
    apply advances_push hm
    · simpa [isLinear] using hc
    · simp [commandStrands, strands]
  | line hard soft literal =>
    apply advances_printLine hm
    rcases hw with h | h
    · exact Or.inl h
    · exact Or.inr (h hard soft literal rfl)
  | breakParent => exact ⟨hm, [], by simp [strands, execute], Written.nil _⟩
  | ifBreak broken flat => simp [isLinear] at hc
  | lineSuffix contents => simp [isLinear] at hc
  | lineSuffixBoundary => simp [isLinear] at hc
  | trim => simp [isLinear] at hc
  | cursor => simp [isLinear] at hc

/-- Where nothing is kept back, there is nothing to take up. -/
theorem settle_of_suffixes (h : machine.suffixes = []) : machine.settle = machine := by
  unfold settle release
  split
  · obtain ⟨column, tail, settled, commands, suffixes, remeasure, cursors⟩ := machine
    obtain rfl : suffixes = [] := h
    rfl
  · rfl

theorem Linear.settle_eq (hm : machine.Linear) : machine.settle = machine :=
  settle_of_suffixes hm.suffixes

theorem run_of_step {next : Machine} (h : machine.step options = some next) :
    machine.run options = next.run options := by
  rw [run]
  split
  · next hnone => simp [h] at hnone
  · next other hother =>
    obtain rfl : next = other := by simpa [h] using hother
    rfl

/-- One step writes some of the strands and leaves the others. -/
theorem step_advances (wrap : Bool) (hm : machine.Linear) {next : Machine}
    (hw : wrap = true ∨ ∀ command ∈ machine.commands.head?, ∀ hard soft literal,
      command.doc = line hard soft literal → hard = true ∨ command.flow = .flat)
    (h : machine.step options = some next) : Advances options wrap [] machine next := by
  unfold step at h
  split at h
  · simp at h
  · next command rest hcs =>
    have hrest : ({ machine with commands := rest } : Machine).Linear :=
      ⟨hm.settled, hm.suffixes, fun c hc => hm.commands c (by simp [hcs, hc])⟩
    have hc : command.doc.isLinear = true := hm.commands command (by simp [hcs])
    have hw : wrap = true ∨ ∀ hard soft literal, command.doc = line hard soft literal →
        hard = true ∨ command.flow = .flat := by
      simpa [hcs] using hw
    obtain ⟨hlin, used, hs, ho⟩ := execute_advances options hrest hc hw
    rw [hlin.settle_eq, Option.some.injEq] at h
    subst h
    refine ⟨hlin, used, ?_, ho⟩
    rw [← hs, hcs]
    simp [commandStrands]

/-- If every step from a state that is kept writes strands and keeps the state,
then a whole run writes all of them. -/
theorem run_written_of (options : LayoutOptions) (wrap : Bool) (kept : Machine → Prop)
    (hstep : ∀ machine next, kept machine → machine.step options = some next →
      kept next ∧ Advances options wrap [] machine next)
    (machine : Machine) (hm : kept machine) :
    Written wrap (commandStrands options machine.commands) machine.out
      (machine.run options).out := by
  rw [run]
  split
  · next h =>
    have hcs : machine.commands = [] := by
      unfold step at h
      split at h
      · assumption
      · simp at h
    rw [hcs]
    exact Written.nil _
  · next next h =>
    obtain ⟨hn, -, used, hs, ho⟩ := hstep machine next hm h
    rw [List.nil_append] at hs
    rw [hs]
    exact ho.append (run_written_of options wrap kept hstep next hn)
termination_by machine.cost
decreasing_by exact cost_step ‹_›

/-- Everything a linear machine is still to do is one way of writing its
strands. -/
theorem run_written (options : LayoutOptions) (machine : Machine) (hm : machine.Linear) :
    Written true (commandStrands options machine.commands) machine.out
      (machine.run options).out := by
  refine run_written_of options true Linear ?_ machine hm
  intro machine next hm h
  have hadvances := step_advances true hm (Or.inl rfl) h
  exact ⟨hadvances.1, hadvances⟩

end Machine

/-! ## Printing a linear document -/

mutual

theorem isLinear_propagateBreaks : ∀ doc : Doc, isLinear doc = true →
    isLinear (propagateBreaks doc).1 = true
  | text _ | line _ _ _ | breakParent => fun _ => by simp [propagateBreaks, isLinear]
  | concat parts => fun h => by
    simpa [propagateBreaks, isLinear] using allLinear_propagateAll parts h
  | fill parts => fun h => by
    simpa [propagateBreaks, isLinear] using allLinear_propagateAll parts h
  | group contents _ none => fun h => by
    simpa [propagateBreaks, isLinear] using isLinear_propagateBreaks contents h
  | indent contents => fun h => by
    simpa [propagateBreaks, isLinear] using isLinear_propagateBreaks contents h
  | align _ contents => fun h => by
    simpa [propagateBreaks, isLinear] using isLinear_propagateBreaks contents h
  | group _ _ (some _) | ifBreak _ _ | lineSuffix _ | lineSuffixBoundary | trim | cursor =>
    fun h => by simp [isLinear] at h

theorem allLinear_propagateAll : ∀ docs : List Doc, allLinear docs = true →
    allLinear (propagateAll docs).1 = true
  | [] => fun h => h
  | doc :: rest => fun h => by
    simp only [allLinear, Bool.and_eq_true] at h
    simp [propagateAll, allLinear, isLinear_propagateBreaks doc h.1,
      allLinear_propagateAll rest h.2]

end

mutual

/-- Marking groups does not change what is written. -/
theorem strands_propagateBreaks (options : LayoutOptions) :
    ∀ (doc : Doc) (indentation : Indentation),
    isLinear doc = true →
    strands options indentation (propagateBreaks doc).1 = strands options indentation doc
  | text _, _ | line _ _ _, _ | breakParent, _ => fun _ => by simp [propagateBreaks, strands]
  | concat parts, _ => fun h => by
    simpa [propagateBreaks, strands] using strandsAll_propagateAll options parts _ h
  | fill parts, _ => fun h => by
    simpa [propagateBreaks, strands] using strandsAll_propagateAll options parts _ h
  | group contents _ none, _ => fun h => by
    simpa [propagateBreaks, strands] using strands_propagateBreaks options contents _ h
  | indent contents, _ => fun h => by
    simpa [propagateBreaks, strands] using strands_propagateBreaks options contents _ h
  | align _ contents, _ => fun h => by
    simpa [propagateBreaks, strands] using strands_propagateBreaks options contents _ h
  | group _ _ (some _), _ | ifBreak _ _, _ | lineSuffix _, _ | lineSuffixBoundary, _ | trim, _
  | cursor, _ => fun h => by simp [isLinear] at h

theorem strandsAll_propagateAll (options : LayoutOptions) :
    ∀ (docs : List Doc) (indentation : Indentation), allLinear docs = true →
    strandsAll options indentation (propagateAll docs).1 = strandsAll options indentation docs
  | [], _ => fun _ => rfl
  | doc :: rest, indentation => fun h => by
    simp only [allLinear, Bool.and_eq_true] at h
    simp [propagateAll, strandsAll, strands_propagateBreaks options doc indentation h.1,
      strandsAll_propagateAll options rest indentation h.2]

end

theorem initial_linear {doc : Doc} (h : doc.isLinear = true) : (initial doc).Linear := by
  refine ⟨rfl, rfl, ?_⟩
  simpa [initial] using isLinear_propagateBreaks doc h

/-- The text of a linear document is one way of writing its strands. -/
theorem render_written (options : LayoutOptions) {doc : Doc} (h : doc.isLinear = true) :
    ∃ out, (doc.render options).text = String.ofList out.reverse ∧
      Written true (doc.strands options {}) [] out := by
  refine ⟨((initial doc).run options).out, rfl, ?_⟩
  have hrun := Machine.run_written options (initial doc) (initial_linear h)
  simpa [initial, commandStrands, Machine.out, strands_propagateBreaks options doc _ h] using hrun

end LatexFormatter.Doc
