import LatexFormatter.Proofs.Doc.Strokes

/-
  What is printed flat stays within the width. A group is printed flat if it
  fits, and `fits` looks past the group, through the commands that are queued,
  to the first place where the line may end. It takes for granted that a later
  group breaks there; that group may turn out to be printed flat after all, but
  then it has been measured itself.

  So the look ahead is its own invariant: once something flat has been carried
  out, the commands that are left fit, step after step, until the line ends
  (`Measured`). That no line ends inside a flat group is what the marking of
  forced breaks is for (`marked_propagateBreaks`).
-/

namespace LatexFormatter.Doc

/-! ## Documents and forced breaks -/

/-- Documents built from text within a line, sequences, changes of indentation,
choices, groups without further states, and lines of three kinds. -/
inductive NoFill : Doc → Prop
  | text {content : String} (h : '\n' ∉ content.toList) : NoFill (text content)
  | concat {parts : List Doc} (h : ∀ doc ∈ parts, NoFill doc) : NoFill (concat parts)
  | indent {contents : Doc} (h : NoFill contents) : NoFill (indent contents)
  | align (alignment : Alignment) {contents : Doc} (h : NoFill contents) :
      NoFill (align alignment contents)
  | ifBreak {broken flat : Doc} (hb : NoFill broken) (hf : NoFill flat) :
      NoFill (ifBreak broken flat)
  | group {contents : Doc} (broken : Bool) (h : NoFill contents) :
      NoFill (group contents broken none)
  | space : NoFill space
  | softline : NoFill softline
  | hardline : NoFill hardline

/-- Those of them in which no line has to be taken. -/
inductive NoFillOrHardLine : Doc → Prop
  | text {content : String} (h : '\n' ∉ content.toList) : NoFillOrHardLine (text content)
  | concat {parts : List Doc} (h : ∀ doc ∈ parts, NoFillOrHardLine doc) :
      NoFillOrHardLine (concat parts)
  | indent {contents : Doc} (h : NoFillOrHardLine contents) : NoFillOrHardLine (indent contents)
  | align (alignment : Alignment) {contents : Doc} (h : NoFillOrHardLine contents) :
      NoFillOrHardLine (align alignment contents)
  | ifBreak {broken flat : Doc} (hb : NoFillOrHardLine broken) (hf : NoFillOrHardLine flat) :
      NoFillOrHardLine (ifBreak broken flat)
  | group {contents : Doc} (h : NoFillOrHardLine contents) :
      NoFillOrHardLine (group contents false none)
  | line (soft : Bool) : NoFillOrHardLine (line false soft false)

/-- Documents whose groups are marked: a line that has to be taken lies in no
group that may be printed flat. -/
inductive Marked : Doc → Prop
  | text {content : String} (h : '\n' ∉ content.toList) : Marked (text content)
  | concat {parts : List Doc} (h : ∀ doc ∈ parts, Marked doc) : Marked (concat parts)
  | indent {contents : Doc} (h : Marked contents) : Marked (indent contents)
  | align (alignment : Alignment) {contents : Doc} (h : Marked contents) :
      Marked (align alignment contents)
  | ifBreak {broken flat : Doc} (hb : Marked broken) (hf : Marked flat) :
      Marked (ifBreak broken flat)
  | broken {contents : Doc} (h : Marked contents) : Marked (group contents true none)
  | group {contents : Doc} (h : NoFillOrHardLine contents) : Marked (group contents false none)
  | line (hard soft : Bool) : Marked (line hard soft false)
  | breakParent : Marked breakParent

theorem NoFillOrHardLine.marked {doc : Doc} (h : NoFillOrHardLine doc) : Marked doc := by
  induction h with
  | text h => exact .text h
  | concat _ ih => exact .concat ih
  | indent _ ih => exact .indent ih
  | align alignment _ ih => exact .align alignment ih
  | ifBreak _ _ ihb ihf => exact .ifBreak ihb ihf
  | group h _ => exact .group h
  | line soft => exact .line false soft

/-- Marking several documents marks each of them, and a break is forced by them if
one of them forces it. -/
theorem propagateAll_eq (docs : List Doc) :
    propagateAll docs = (docs.map fun doc => (propagateBreaks doc).1,
      docs.any fun doc => (propagateBreaks doc).2) := by
  induction docs with
  | nil => rfl
  | cons doc rest ih => simp [propagateAll, ih]

/-- After forced breaks have been passed on, groups are marked; and a document
that forces nothing has no line that has to be taken. -/
theorem marked_propagateBreaks {doc : Doc} (h : NoFill doc) :
    Marked (propagateBreaks doc).1 ∧
      ((propagateBreaks doc).2 = false → NoFillOrHardLine (propagateBreaks doc).1) := by
  induction h with
  | text h => exact ⟨.text h, fun _ => .text h⟩
  | @concat parts _ ih =>
    simp only [propagateBreaks, propagateAll_eq, List.any_eq_false]
    refine ⟨.concat ?_, fun hforced => .concat ?_⟩
    · intro doc hdoc
      obtain ⟨part, hpart, rfl⟩ := List.mem_map.1 hdoc
      exact (ih part hpart).1
    · intro doc hdoc
      obtain ⟨part, hpart, rfl⟩ := List.mem_map.1 hdoc
      exact (ih part hpart).2 (by simpa using hforced part hpart)
  | indent _ ih => exact ⟨.indent ih.1, fun hforced => .indent (ih.2 hforced)⟩
  | align alignment _ ih =>
    exact ⟨.align alignment ih.1, fun hforced => .align alignment (ih.2 hforced)⟩
  | ifBreak _ _ ihb ihf =>
    simp only [propagateBreaks, Bool.or_eq_false_iff]
    exact ⟨.ifBreak ihb.1 ihf.1, fun hforced => .ifBreak (ihb.2 hforced.1) (ihf.2 hforced.2)⟩
  | @group contents broken _ ih =>
    simp only [propagateBreaks]
    cases hforced : broken || (propagateBreaks contents).2 with
    | true => exact ⟨.broken ih.1, by simp⟩
    | false =>
      have hsoft := ih.2 (Bool.or_eq_false_iff.1 hforced).2
      exact ⟨.group hsoft, fun _ => .group hsoft⟩
  | space => exact ⟨.line false false, fun _ => .line false⟩
  | softline => exact ⟨.line false true, fun _ => .line true⟩
  | hardline =>
    refine ⟨.concat ?_, by simp [hardline, propagateBreaks, propagateAll]⟩
    intro doc hdoc
    rcases List.mem_cons.1 hdoc with rfl | hdoc
    · exact .line true false
    · rw [List.mem_singleton.1 hdoc]
      exact .breakParent

/-! ## The look ahead -/

/-- What commands are to print, and whether flat, without their indentation. -/
def tasks (commands : List Command) : List (Flow × Doc) :=
  commands.map fun command => (command.flow, command.doc)

@[simp] theorem tasks_cons (command : Command) (rest : List Command) :
    tasks (command :: rest) = (command.flow, command.doc) :: tasks rest := rfl

@[simp] theorem tasks_append (xs ys : List Command) : tasks (xs ++ ys) = tasks xs ++ tasks ys :=
  List.map_append

@[simp] theorem tasks_all (indentation : Indentation) (flow : Flow) (docs : List Doc) :
    tasks (Command.all indentation flow docs) = docs.map fun doc => (flow, doc) := by
  simp [tasks, Command.all]

@[simp] theorem choose_self (flow : Flow) (doc : Doc) : flow.choose doc doc = doc := by
  cases flow <;> rfl

theorem marked_choose {broken flat : Doc} (flow : Flow) (hb : Marked broken) (hf : Marked flat) :
    Marked (flow.choose broken flat) := by
  cases flow
  · exact hb
  · exact hf

theorem marked_group {contents : Doc} {broken : Bool} {states : Option (List Doc)}
    (h : Marked (group contents broken states)) : states = none ∧ Marked contents := by
  cases h with
  | broken h => exact ⟨rfl, h⟩
  | group h => exact ⟨rfl, h.marked⟩

/-- Looking ahead depends neither on indentation nor, where nothing removes them,
on the blanks that have been passed. -/
theorem fits_congr (mustBeFlat : Bool) (width : Int) (kept : Bool) (trailing trailing' : Nat)
    {xs ys : List Command} (ht : tasks xs = tasks ys) (hm : ∀ command ∈ xs, Marked command.doc) :
    fits mustBeFlat width kept trailing xs = fits mustBeFlat width kept trailing' ys := by
  -- looking ahead replaces a command by cheaper ones
  induction hcost : commandCost xs using Nat.strongRecOn
    generalizing width kept trailing trailing' xs ys with
  | ind n ih =>
  rw [fits.eq_def mustBeFlat width kept trailing xs, fits.eq_def mustBeFlat width kept trailing' ys]
  split
  · rfl
  cases xs with
  | nil =>
    obtain rfl : ys = [] := List.map_eq_nil_iff.1 ht.symm
    rfl
  | cons x xs =>
    obtain ⟨y, ys, rfl⟩ : ∃ y more, ys = y :: more := by
      cases ys with
      | nil => cases ht
      | cons y more => exact ⟨y, more, rfl⟩
    obtain ⟨indentation, flow, doc⟩ := x
    obtain ⟨indentation', flow', doc'⟩ := y
    simp only [tasks_cons, List.cons.injEq, Prod.mk.injEq] at ht
    obtain ⟨⟨rfl, rfl⟩, ht⟩ := ht
    obtain ⟨hdoc, hrest⟩ := List.forall_mem_cons.1 hm
    simp only at hdoc
    simp only [commandCost] at hcost
    have next : ∀ (width : Int) (kept : Bool) (trailing trailing' : Nat)
        (later later' : List Command), tasks later = tasks later' →
        (∀ command ∈ later, Marked command.doc) →
        commandCost later < n →
        fits mustBeFlat width kept trailing later = fits mustBeFlat width kept trailing' later' :=
      fun width kept trailing trailing' later later' ht hm hlt =>
        ih _ hlt width kept trailing trailing' ht hm rfl
    -- one document in the place of the first
    have instead : ∀ contents : Doc, Marked contents → contents.cost < doc.cost → ∀ flow,
        fits mustBeFlat width kept trailing (⟨indentation, flow, contents⟩ :: xs)
          = fits mustBeFlat width kept trailing' (⟨indentation', flow, contents⟩ :: ys) := by
      intro contents hcontents hlt flow
      refine next _ _ _ _ _ _ (by simp [ht]) (List.forall_mem_cons.2 ⟨hcontents, hrest⟩) ?_
      simp only [commandCost]
      omega
    cases hdoc with
    | text h =>
      simp only [cost] at hcost
      dsimp only
      split
      · rfl
      · exact next _ _ _ _ _ _ ht hrest (by omega)
    | concat h =>
      simp only [cost] at hcost
      refine next _ _ _ _ _ _ (by simp [ht]) ?_ ?_
      · refine List.forall_mem_append.2 ⟨?_, hrest⟩
        intro command hmem
        obtain ⟨doc, hdoc, rfl⟩ := List.mem_map.1 hmem
        exact h doc hdoc
      · rw [commandCost_append, commandCost_all]
        omega
    | indent h => exact instead _ h (by simp [cost]) flow
    | align alignment h => exact instead _ h (by simp [cost]) flow
    | ifBreak hb hf =>
      refine instead _ (marked_choose flow hb hf) ?_ flow
      exact Nat.lt_succ_of_le (cost_choose_le flow _ _)
    | @broken contents h =>
      simp only [mostExpanded, choose_self]
      split
      · rfl
      · exact instead contents h (by simp only [cost]; omega) _
    | @group contents h =>
      simp only [mostExpanded, choose_self]
      split
      · rfl
      · exact instead contents h.marked (by simp only [cost]; omega) _
    | line hard soft =>
      simp only [cost] at hcost
      dsimp only
      split
      · rfl
      · split
        · exact next _ _ _ _ _ _ ht hrest (by omega)
        · exact next _ _ _ _ _ _ ht hrest (by omega)
    | breakParent =>
      simp only [cost] at hcost
      exact next _ _ _ _ _ _ ht hrest (by omega)

/-- What fits has room. -/
theorem nonneg_of_fits {mustBeFlat : Bool} {width : Int} {kept : Bool} {trailing : Nat}
    {commands : List Command} (h : fits mustBeFlat width kept trailing commands = true) :
    0 ≤ width := by
  rw [fits.eq_def] at h
  split at h
  · cases h
  · omega

/-! ## The machine -/

/-- The groups of the command's document are marked, and if it is flat there is no
line in it that has to be taken. -/
structure Command.Ready (command : Command) : Prop where
  marked : Marked command.doc
  noHardLine : command.flow = .flat → NoFillOrHardLine command.doc

namespace Machine

/-- The columns between the column and the width, however many. -/
def slack (options : LayoutOptions) (machine : Machine) : Int :=
  signed64 options.printWidth - machine.column

/-- The room left on the line is a number too low for the machine to hold. -/
def Underflows (options : LayoutOptions) (machine : Machine) : Prop :=
  machine.out.length < signedLimit ∧ machine.slack options < -(signedLimit : Int)

/-- A machine whose numbers can be relied on: the column is one that it can hold,
and the room left on the line is not too low for it. -/
structure InRange (options : LayoutOptions) (machine : Machine) : Prop where
  column : machine.Numbered
  room : ¬ machine.Underflows options

/-- Room that is seen is there. What is too high to be held is seen as no room. -/
theorem InRange.room_eq {options : LayoutOptions} {machine : Machine}
    (hrange : machine.InRange options) (hroom : 0 ≤ machine.room options) :
    machine.room options = machine.slack options := by
  by_cases hlength : machine.out.length < signedLimit
  · obtain ⟨hlow, hhigh⟩ := hrange.column hlength
    obtain ⟨-, hwidth⟩ := fitsSigned_signed64 options.printWidth
    have hslack : -(signedLimit : Int) ≤ machine.slack options := by
      have hunder := hrange.room
      simp only [Underflows, not_and, Int.not_lt] at hunder
      exact hunder hlength
    by_cases hfits : FitsSigned (machine.slack options)
    · exact hold_of_fits hfits machine
    · exfalso
      have hlimit := wordLimit_eq
      have hcut : machine.room options = machine.slack options - wordLimit := by
        have hbmod : (machine.slack options - wordLimit).bmod wordLimit
            = machine.slack options - wordLimit :=
          bmod_of_fits ⟨by unfold FitsSigned at hfits; omega, by unfold slack; omega⟩
        rw [← hbmod, Int.sub_bmod_right]
        exact signedWord_eq_bmod hlength
      unfold slack at hcut
      omega
  · exact signedWord_of_long (Nat.not_lt.1 hlength)

/-- No width that reads as a natural number makes the room too low. -/
theorem width_neg_of_underflows {options : LayoutOptions} {machine : Machine}
    (hcolumn : machine.Numbered) (hlow : machine.Underflows options) :
    signed64 options.printWidth < 0 := by
  obtain ⟨hlength, hslack⟩ := hlow
  obtain ⟨-, hhigh⟩ := hcolumn hlength
  unfold slack at hslack
  omega

/-- The commands that are left fit on the line, as far as it can be seen. -/
def Fits (options : LayoutOptions) (machine : Machine) : Prop :=
  fits false (machine.slack options) false 0 machine.commands = true

/-- A machine that has been measured: flat commands come before all others, and
the commands fit if something flat stands on the line, as `flat` tells, or comes
next. -/
structure Measured (options : LayoutOptions) (machine : Machine) (flat : Bool) : Prop where
  suffixes : machine.suffixes = []
  remeasure : machine.remeasure = false
  ready : ∀ command ∈ machine.commands, command.Ready
  order : machine.commands.Pairwise fun first later => later.flow = .flat → first.flow = .flat
  room : (flat = true ∨ ∃ command ∈ machine.commands.head?, command.flow = .flat) →
    machine.Fits options

variable {options : LayoutOptions} {machine next : Machine} {command : Command}
  {rest : List Command} {flat : Bool}

theorem Measured.weaken {flat' : Bool} (hm : machine.Measured options flat)
    (h : flat' = true → flat = true) : machine.Measured options flat' :=
  ⟨hm.suffixes, hm.remeasure, hm.ready, hm.order, fun hroom => hm.room (hroom.imp_left h)⟩

/-- Commands of the same flow take the place of the first one, and still fit if it
did. -/
theorem Measured.replace (hm : machine.Measured options flat)
    (hcommands : machine.commands = command :: rest) (pushed : List Command)
    (hnext : next.commands = pushed ++ rest) (hsuffixes : next.suffixes = [])
    (hremeasure : next.remeasure = false) (hready : ∀ other ∈ pushed, other.Ready)
    (hflow : ∀ other ∈ pushed, other.flow = command.flow)
    (hfits : machine.Fits options → next.Fits options) :
    next.Measured options (flat || command.flow == .flat) := by
  have hmready := hm.ready
  have horder := hm.order
  rw [hcommands] at hmready horder
  obtain ⟨hfirst, hrest⟩ := List.pairwise_cons.1 horder
  refine ⟨hsuffixes, hremeasure, ?_, ?_, ?_⟩
  · rw [hnext]
    exact List.forall_mem_append.2 ⟨hready, (List.forall_mem_cons.1 hmready).2⟩
  · rw [hnext, List.pairwise_append]
    refine ⟨?_, hrest, ?_⟩
    · apply List.pairwise_of_forall_mem_list
      intro first hf later hl hflat
      rw [hflow first hf, ← hflow later hl]
      exact hflat
    · intro first hf later hl hflat
      rw [hflow first hf]
      exact hfirst later hl hflat
  · intro hnow
    apply hfits
    apply hm.room
    -- whatever is flat now was flat before
    rcases hnow with hnow | ⟨other, hother, hflat⟩
    · simp only [Bool.or_eq_true, beq_iff_eq] at hnow
      exact hnow.imp_right fun h => ⟨command, by simp [hcommands], h⟩
    · have hmem : other ∈ pushed ++ rest := hnext ▸ List.mem_of_mem_head? hother
      have hcommand : command.flow = .flat := by
        rcases List.mem_append.1 hmem with h | h
        · rw [← hflow other h, hflat]
        · exact hfirst other h hflat
      exact Or.inr ⟨command, by simp [hcommands], hcommand⟩

/-- Where the first command is not flat, no other one is. -/
theorem Measured.broken_of_broken (hm : machine.Measured options flat)
    (hcommands : machine.commands = command :: rest) (hbroken : command.flow = .broken) :
    ∀ other ∈ rest, other.flow = .broken := by
  have horder := hm.order
  rw [hcommands] at horder
  intro other hother
  cases hflow : other.flow with
  | broken => rfl
  | flat =>
    rw [(List.pairwise_cons.1 horder).1 other hother hflow] at hbroken
    cases hbroken

/-- A line that is taken ends one more line of the output. -/
theorem count_startLine (margin : Margin) (machine : Machine) :
    machine.out.count '\n' < (machine.trim.startLine margin).out.count '\n' := by
  have hblanks : (machine.tail.takeWhile isSpace).count '\n' = 0 := by
    rw [List.count_eq_zero]
    intro hmem
    have hspace := List.all_eq_true.1 List.all_takeWhile _ hmem
    exact absurd hspace (by decide)
  have htail := congrArg (List.count '\n')
    (List.takeWhile_append_dropWhile (p := isSpace) (l := machine.tail))
  rw [List.count_append, hblanks] at htail
  simp only [out, trim, startLine, List.count_append, List.count_cons_self, List.append_assoc,
    List.cons_append]
  omega

/-- A group is printed as it was measured: inside something flat it is flat, and
elsewhere it is broken unless it has been seen to fit. -/
theorem Measured.printGroup {indentation : Indentation} {flow : Flow} {contents : Doc}
    {broken : Bool} (hm : machine.Measured options flat) (hrange : machine.InRange options)
    (hcommands : machine.commands = ⟨indentation, flow, group contents broken none⟩ :: rest) :
    ({ machine with commands := rest }.printGroup options indentation flow contents broken
      none).Measured options (flat || flow == Flow.flat) := by
  have hready : (⟨indentation, flow, group contents broken none⟩ : Command).Ready :=
    hm.ready _ (by simp [hcommands])
  have hmarked := (marked_group hready.marked).2
  -- the contents in the place of the group
  have inside : machine.Fits options → fits false (machine.slack options) false 0
      (⟨indentation, flow.inside broken, contents⟩ :: rest) = true := by
    intro hfits
    have hroom := nonneg_of_fits hfits
    rw [Fits, hcommands, fits.eq_def, if_neg (by omega)] at hfits
    simpa [mostExpanded] using hfits
  -- a group whose contents are printed in the way of the group
  have kept : ∀ remeasure, remeasure = false → (⟨indentation, flow, contents⟩ : Command).Ready →
      flow.inside broken = flow →
      ({ machine with commands := rest, remeasure := remeasure }.push
        [⟨indentation, flow, contents⟩]).Measured options (flat || flow == Flow.flat) := by
    rintro remeasure rfl hcontents hflow
    refine hm.replace hcommands [⟨indentation, flow, contents⟩] rfl hm.suffixes rfl
      (by simpa using hcontents) (by simp) ?_
    intro hfits
    rw [← hflow]
    exact inside hfits
  cases flow with
  | flat =>
    cases hready.noHardLine rfl with
    | group hsoft =>
      have hkept := kept machine.remeasure hm.remeasure ⟨hmarked, fun _ => hsoft⟩ rfl
      simpa [Machine.printGroup, hm.remeasure, Flow.inside] using hkept
  | broken =>
    simp only [Machine.printGroup, chooseState, show (Flow.broken == Flow.flat) = false from rfl,
      Bool.false_and, Bool.false_eq_true, if_false]
    split
    · next state hfound =>
      -- a group that has just been seen to fit
      have hmem := List.mem_of_find?_eq_some hfound
      have hroom := List.find?_some hfound
      cases broken with
      | true => simp at hmem
      | false =>
        obtain rfl : state = contents := by simpa using hmem
        have hsoft : NoFillOrHardLine state := by
          cases hready.marked with
          | group h => exact h
        refine ⟨hm.suffixes, rfl, ?_, ?_, ?_⟩
        · refine List.forall_mem_cons.2 ⟨⟨hmarked, fun _ => hsoft⟩, ?_⟩
          intro other hother
          exact hm.ready other (hcommands ▸ List.mem_cons_of_mem _ hother)
        · refine List.pairwise_cons.2 ⟨fun _ _ _ => rfl, ?_⟩
          have horder := hm.order
          rw [hcommands] at horder
          exact (List.pairwise_cons.1 horder).2
        · intro _
          change fits false (machine.room options) (!machine.suffixes.isEmpty) 0 _ = true at hroom
          rw [hm.suffixes, hrange.room_eq (nonneg_of_fits hroom)] at hroom
          exact hroom
    · exact kept false rfl ⟨hmarked, by simp⟩ (by simp [Flow.inside])

theorem out_printGroup (indentation : Indentation) (flow : Flow) (contents : Doc) (broken : Bool) :
    ({ machine with commands := rest }.printGroup options indentation flow contents broken
      none).out.count '\n' = machine.out.count '\n' := by
  obtain ⟨flow', remeasure, h⟩ :=
    printGroup_eq options { machine with commands := rest } indentation flow contents broken
  rw [h]
  rfl

/-- What a step does to a machine that has been measured: it stays on the line and
the machine remains measured, or it ends the line. -/
def Proceeds (options : LayoutOptions) (flat : Bool) (machine next : Machine) : Prop :=
  (next.out.count '\n' = machine.out.count '\n' ∧ next.Measured options flat) ∨
    (machine.out.count '\n' < next.out.count '\n' ∧ next.Measured options false)

/-- Text that there is room for moves the column on by its length. -/
theorem InRange.column_write (hrange : machine.InRange options) {content : List Char}
    (hcontent : '\n' ∉ content) (hroom : 0 ≤ machine.slack options - content.length) :
    (machine.write content).column = machine.column + content.length := by
  obtain ⟨-, hwidth⟩ := fitsSigned_signed64 options.printWidth
  simp only [Machine.write, List.contains_eq_mem, hcontent, decide_false, Bool.false_eq_true,
    if_false]
  by_cases hlength : machine.out.length < signedLimit
  · obtain ⟨hlow, -⟩ := hrange.column hlength
    unfold slack at hroom
    exact hold_of_fits ⟨by omega, by omega⟩ _
  · refine signedWord_of_long ?_
    simp only [out, List.length_append, List.length_reverse] at hlength ⊢
    omega

/-- Text within a line takes the room that was left for it. -/
theorem Measured.write (hm : machine.Measured options flat) (hrange : machine.InRange options)
    (hcommands : machine.commands = command :: rest) {content : List Char}
    (hcontent : '\n' ∉ content)
    (hfits : machine.Fits options → ∃ trailing,
      fits false (machine.slack options - content.length) false trailing rest = true) :
    Proceeds options (flat || command.flow == .flat) machine
      ({ machine with commands := rest }.write content) := by
  refine Or.inl ⟨?_, ?_⟩
  · simp [Machine.write, out, List.count_append, List.count_eq_zero.2 hcontent]
  · refine hm.replace hcommands [] rfl hm.suffixes hm.remeasure (by simp) (by simp) ?_
    intro h
    obtain ⟨trailing, htrailing⟩ := hfits h
    have hcolumn := hrange.column_write hcontent (nonneg_of_fits htrailing)
    have hroom : ({ machine with commands := rest }.write content).slack options
        = machine.slack options - content.length := by
      have hsame : ({ machine with commands := rest }.write content).column
          = (machine.write content).column := rfl
      simp only [slack, hsame, hcolumn]
      omega
    rw [Fits, hroom]
    refine (fits_congr _ _ _ _ _ rfl ?_).trans htrailing
    intro other hother
    exact (hm.ready other (hcommands ▸ List.mem_cons_of_mem _ hother)).marked

/-- Commands that take the place of the first one leave the output as it is. -/
theorem Measured.push (hm : machine.Measured options flat)
    (hcommands : machine.commands = command :: rest) (pushed : List Command)
    (hready : ∀ other ∈ pushed, other.Ready) (hflow : ∀ other ∈ pushed, other.flow = command.flow)
    (hfits : machine.Fits options →
      fits false (machine.slack options) false 0 (pushed ++ rest) = true) :
    Proceeds options (flat || command.flow == .flat) machine
      ({ machine with commands := rest }.push pushed) :=
  Or.inl ⟨rfl, hm.replace hcommands pushed rfl hm.suffixes hm.remeasure hready hflow hfits⟩

/-- What `fits` sees of a flat line. -/
theorem fits_line {indentation : Indentation} {soft : Bool} (hfits : machine.Fits options)
    (hcommands : machine.commands = ⟨indentation, .flat, line false soft false⟩ :: rest) :
    (if soft then fits false (machine.slack options) false 0 rest
      else fits false (machine.slack options - 1) false 1 rest) = true := by
  have hroom := nonneg_of_fits hfits
  rw [Fits, hcommands, fits.eq_def, if_neg (by omega)] at hfits
  simpa using hfits

/-- A line is a space or nothing in something flat, and is taken elsewhere. -/
theorem Measured.printLine {indentation : Indentation} {flow : Flow} {hard soft : Bool}
    (hm : machine.Measured options flat) (hrange : machine.InRange options)
    (hcommands : machine.commands = ⟨indentation, flow, line hard soft false⟩ :: rest) :
    Proceeds options (flat || flow == .flat) machine
      ({ machine with commands := rest }.printLine indentation flow hard soft false) := by
  cases flow with
  | flat =>
    have hsoft := (hm.ready _ (hcommands ▸ List.mem_cons_self ..)).noHardLine rfl
    cases hsoft with
    | line soft =>
      cases soft with
      | false =>
        refine hm.write hrange hcommands (by simp) ?_
        intro hfits
        exact ⟨1, by simpa using fits_line hfits hcommands⟩
      | true =>
        refine hm.push hcommands [] (by simp) (by simp) ?_
        intro hfits
        simpa using fits_line hfits hcommands
  | broken =>
    have hrest := hm.broken_of_broken hcommands rfl
    have horder := hm.order
    have hready := hm.ready
    rw [hcommands] at horder hready
    refine Or.inr ?_
    simp only [Machine.printLine, breakLine, hm.suffixes, List.isEmpty_nil, Bool.not_true,
      Bool.false_eq_true, if_false]
    refine ⟨count_startLine indentation.margin { machine with commands := rest }, rfl,
      hm.remeasure, (List.forall_mem_cons.1 hready).2, (List.pairwise_cons.1 horder).2, ?_⟩
    -- after a line break nothing flat comes next
    rintro (h | ⟨other, hother, hflat⟩)
    · cases h
    · rw [hrest other (List.mem_of_mem_head? hother)] at hflat
      cases hflat

/-- Carrying out the first command keeps a machine measured, or ends the line. -/
theorem Measured.execute (hm : machine.Measured options flat) (hrange : machine.InRange options)
    (hcommands : machine.commands = command :: rest) :
    Proceeds options (flat || command.flow == .flat) machine
      ({ machine with commands := rest }.execute options command) := by
  obtain ⟨hready, hrest⟩ := List.forall_mem_cons.1 (hcommands ▸ hm.ready)
  obtain ⟨indentation, flow, doc⟩ := command
  obtain ⟨hmarked, hsoft⟩ := hready
  simp only at hmarked hsoft
  have hseen : machine.Fits options → ¬ machine.slack options < 0 ∧
      fits false (machine.slack options) false 0 (⟨indentation, flow, doc⟩ :: rest) = true :=
    fun hfits => ⟨by have := nonneg_of_fits hfits; omega, hcommands ▸ hfits⟩
  -- one document in the place of another one, with the same flow
  have instead : ∀ (indentation' : Indentation) (contents : Doc), Marked contents →
      (flow = .flat → NoFillOrHardLine contents) →
      (∀ width : Int, ¬ width < 0 → fits false width false 0 (⟨indentation, flow, doc⟩ :: rest)
        = fits false width false 0 (⟨indentation, flow, contents⟩ :: rest)) →
      Proceeds options (flat || flow == .flat) machine
        ({ machine with commands := rest }.push [⟨indentation', flow, contents⟩]) := by
    intro indentation' contents hcontents hflat hsame
    refine hm.push hcommands _ (by simpa using ⟨hcontents, hflat⟩) (by simp) ?_
    intro hfits
    obtain ⟨hroom, hfits⟩ := hseen hfits
    rw [hsame _ hroom] at hfits
    rw [← hfits]
    apply fits_congr
    · simp
    · simpa using ⟨hcontents, fun other hother => (hrest other hother).marked⟩
  cases hmarked with
  | text h =>
    refine hm.write hrange hcommands h ?_
    intro hfits
    obtain ⟨hroom, hfits⟩ := hseen hfits
    rw [fits.eq_def, if_neg hroom] at hfits
    exact ⟨_, by simpa [h] using hfits⟩
  | @concat parts h =>
    refine hm.push hcommands _ ?_ (by simp [Command.all]) ?_
    · intro other hother
      obtain ⟨part, hpart, rfl⟩ := List.mem_map.1 hother
      refine ⟨h part hpart, fun hflat => ?_⟩
      cases hsoft hflat with
      | concat hparts => exact hparts part hpart
    · intro hfits
      obtain ⟨hroom, hfits⟩ := hseen hfits
      rw [fits.eq_def, if_neg hroom] at hfits
      exact hfits
  | indent h =>
    refine instead _ _ h (fun hflat => ?_) fun width hwidth => by rw [fits.eq_def, if_neg hwidth]
    cases hsoft hflat with
    | indent hcontents => exact hcontents
  | align alignment h =>
    refine instead _ _ h (fun hflat => ?_) fun width hwidth => by rw [fits.eq_def, if_neg hwidth]
    cases hsoft hflat with
    | align _ hcontents => exact hcontents
  | ifBreak hb hf =>
    refine instead _ _ (marked_choose flow hb hf) (fun hflat => ?_) fun width hwidth => by
      rw [fits.eq_def, if_neg hwidth]
    subst hflat
    cases hsoft rfl with
    | ifBreak _ hcontents => exact hcontents
  | broken _ => exact Or.inl ⟨out_printGroup .., hm.printGroup hrange hcommands⟩
  | group _ => exact Or.inl ⟨out_printGroup .., hm.printGroup hrange hcommands⟩
  | line hard soft => exact hm.printLine hrange hcommands
  | breakParent =>
    refine hm.push hcommands [] (by simp) (by simp) ?_
    intro hfits
    obtain ⟨hroom, hfits⟩ := hseen hfits
    rw [fits.eq_def, if_neg hroom] at hfits
    exact hfits

/-- A step keeps a machine measured, or ends the line. -/
theorem Measured.step (hm : machine.Measured options flat) (hrange : machine.InRange options)
    (hcommands : machine.commands = command :: rest) (hstep : machine.step options = some next) :
    Proceeds options (flat || command.flow == .flat) machine next := by
  have hexecute := hm.execute hrange hcommands
  have hsuffixes : ({ machine with commands := rest }.execute options command).suffixes = [] := by
    rcases hexecute with ⟨-, h⟩ | ⟨-, h⟩
    · exact h.suffixes
    · exact h.suffixes
  simp only [Machine.step, hcommands, settle_of_suffixes hsuffixes, Option.some.injEq] at hstep
  rw [← hstep]
  exact hexecute

/-- As long as the line has not ended, a machine that has been measured stays so:
what is flat on the line is not forgotten. -/
theorem Measured.reaches {later : Machine} (hm : machine.Measured options flat)
    (hreach : Reaches options machine later)
    (hrange : ∀ state, Reaches options machine state → Reaches options state later →
      state.InRange options) : Proceeds options flat machine later := by
  induction hreach with
  | refl => exact Or.inl ⟨rfl, hm⟩
  | @step state _ hreach hstep ih =>
    obtain ⟨command, rest, hcommands⟩ := exists_command hstep
    have hstate := hrange state hreach (Reaches.refl.step hstep)
    rcases ih fun earlier h h' => hrange earlier h (h'.step hstep) with
      ⟨hsame, hmeasured⟩ | ⟨hmore, hmeasured⟩
    · rcases hmeasured.step hstate hcommands hstep with ⟨hcount, hnext⟩ | ⟨hcount, hnext⟩
      · exact Or.inl ⟨hcount.trans hsame, hnext.weaken (by simp +contextual)⟩
      · exact Or.inr ⟨by omega, hnext⟩
    · rcases hmeasured.step hstate hcommands hstep with ⟨hcount, hnext⟩ | ⟨hcount, hnext⟩
      · exact Or.inr ⟨by omega, hnext.weaken (by simp)⟩
      · exact Or.inr ⟨by omega, hnext⟩

end Machine

theorem measured_initial (options : LayoutOptions) {doc : Doc} (hdoc : NoFill doc) :
    (initial doc).Measured options false := by
  refine ⟨rfl, rfl, ?_, ?_, ?_⟩
  · simpa [initial] using ⟨(marked_propagateBreaks hdoc).1, by simp⟩
  · simp [initial]
  · simp [initial]

end LatexFormatter.Doc
