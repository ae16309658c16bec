import LatexFormatter.Proofs.Doc.Flat
import LatexFormatter.Proofs.Doc.Wide
import Mathlib.Data.List.Find

/-
  How a group is printed. A group without hard lines is printed flat exactly
  if its flat text fits; otherwise its own lines are taken, all of them, and the
  groups and fills inside it see to theirs. `Typeset` says which outputs a flow
  allows, document by document and without measuring anything, and the machine
  keeps to it (`HoldsNoHardLine.run`).

  A group with further states is the first of them that fits, or the last one with
  its lines taken (`conditionalGroup_prints_first_fit`).
-/

namespace LatexFormatter.Doc

/-! ## Lines that are taken or passed over -/

mutual

/-- What printing a document can turn an output into, which is given last
character first. The flow decides about the lines of the document itself; a line
that is taken starts a new one with its margin. A group inside goes either way,
and so does each part of a fill. -/
inductive Typeset (options : LayoutOptions) :
    Flow → Indentation → Doc → List Char → List Char → Prop
  | text {flow : Flow} {indentation : Indentation} (content : String) (out : List Char) :
      Typeset options flow indentation (text content) out (content.toList.reverse ++ out)
  | concat {flow : Flow} {indentation : Indentation} {parts : List Doc} {out final : List Char}
      (h : TypesetAll options [flow] indentation parts out final) :
      Typeset options flow indentation (concat parts) out final
  | group {flow : Flow} {indentation : Indentation} {contents : Doc} {out final : List Char}
      (inner : Flow) (h : Typeset options inner indentation contents out final) :
      Typeset options flow indentation (group contents false none) out final
  | fill {flow : Flow} {indentation : Indentation} {parts : List Doc} {out final : List Char}
      (h : TypesetAll options [.broken, .flat] indentation parts out final) :
      Typeset options flow indentation (fill parts) out final
  | indent {flow : Flow} {indentation : Indentation} {contents : Doc} {out final : List Char}
      (h : Typeset options flow (indentation.indent options) contents out final) :
      Typeset options flow indentation (indent contents) out final
  | align {flow : Flow} {indentation : Indentation} {alignment : Alignment} {contents : Doc}
      {out final : List Char}
      (h : Typeset options flow (indentation.align options alignment) contents out final) :
      Typeset options flow indentation (align alignment contents) out final
  | line {flow : Flow} {indentation : Indentation} (soft literal : Bool) (out : List Char) :
      Typeset options flow indentation (line false soft literal) out
        ((Strand.line false soft literal (indentation.lineMargin literal)).put
          (flow == .broken) out)
  | ifBreak {flow : Flow} {indentation : Indentation} {broken flat : Doc} {out final : List Char}
      (h : Typeset options flow indentation (flow.choose broken flat) out final) :
      Typeset options flow indentation (ifBreak broken flat) out final

/-- What printing several documents can turn an output into, each of them in one of
the flows allowed. -/
inductive TypesetAll (options : LayoutOptions) :
    List Flow → Indentation → List Doc → List Char → List Char → Prop
  | nil {allowed : List Flow} {indentation : Indentation} (out : List Char) :
      TypesetAll options allowed indentation [] out out
  | cons {allowed : List Flow} {flow : Flow} {indentation : Indentation} {doc : Doc}
      {rest : List Doc} {out mid final : List Char} (hflow : flow ∈ allowed)
      (h : Typeset options flow indentation doc out mid)
      (hrest : TypesetAll options allowed indentation rest mid final) :
      TypesetAll options allowed indentation (doc :: rest) out final

end

mutual

/-- How many lines of its own a document has in a flow: those in groups and fills
are theirs, and a choice has the lines of one side only. -/
def ownLines (flow : Flow) : Doc → Nat
  | line _ _ _ => 1
  | concat parts => ownLinesAll flow parts
  | indent contents => ownLines flow contents
  | align _ contents => ownLines flow contents
  | ifBreak broken flat =>
    match flow with
    | .broken => ownLines flow broken
    | .flat => ownLines flow flat
  | _ => 0

def ownLinesAll (flow : Flow) : List Doc → Nat
  | [] => 0
  | doc :: rest => ownLines flow doc + ownLinesAll flow rest

end

theorem count_dropWhile_isSpace (out : List Char) :
    (out.dropWhile isSpace).count '\n' = out.count '\n' := by
  induction out with
  | nil => rfl
  | cons c rest ih =>
    rw [List.dropWhile_cons]
    split
    · next hspace =>
      have hne : c ≠ '\n' := by
        rintro rfl
        simp [isSpace] at hspace
      rw [ih, List.count_cons_of_ne hne]
    · rfl

/-- A line that is taken ends one more line. -/
theorem count_put_line (soft literal : Bool) (margin : Margin) (broken : Bool) (out : List Char) :
    out.count '\n' + (if broken then 1 else 0)
      ≤ ((Strand.line false soft literal margin).put broken out).count '\n' := by
  cases broken with
  | true =>
    cases literal <;>
      simp only [Strand.put, if_true, Bool.false_eq_true, if_false, List.count_append,
        List.count_cons_self, count_dropWhile_isSpace] <;>
      omega
  | false => cases soft <;> simp [Strand.put]

mutual

/-- Nothing takes an ended line back, and every line of its own that a document
takes ends one. -/
theorem Typeset.count_le {options : LayoutOptions} : ∀ {flow : Flow} {indentation : Indentation}
    {doc : Doc} {out final : List Char}, Typeset options flow indentation doc out final →
    out.count '\n' + (if flow == .broken then doc.ownLines .broken else 0) ≤ final.count '\n'
  | _, _, _, _, _, .text content out => by
    simp [ownLines, List.count_append]
  | flow, _, _, _, _, .concat h => by
    have hparts := h.count_le
    simpa [ownLines] using hparts
  | _, _, _, _, _, .group _ h => by
    have hcontents := h.count_le
    simp only [ownLines, ite_self]
    omega
  | _, _, _, _, _, .fill h => by
    have hparts := h.count_le
    simp only [ownLines, ite_self]
    omega
  | _, _, _, _, _, .indent h => h.count_le
  | _, _, _, _, _, .align h => h.count_le
  | flow, _, _, _, _, .line soft literal out => count_put_line soft literal _ (flow == .broken) out
  | flow, _, _, _, _, .ifBreak h => by
    have hside := h.count_le
    cases flow with
    | broken => exact hside
    | flat => exact hside

theorem TypesetAll.count_le {options : LayoutOptions} : ∀ {allowed : List Flow}
    {indentation : Indentation} {docs : List Doc} {out final : List Char},
    TypesetAll options allowed indentation docs out final →
    out.count '\n' + (if allowed.all (· == .broken) then ownLinesAll .broken docs else 0)
      ≤ final.count '\n'
  | _, _, _, _, _, .nil out => by simp [ownLinesAll]
  | allowed, _, _, _, _, .cons hflow h hrest => by
    have hfirst := h.count_le
    have hrest := hrest.count_le
    cases hall : allowed.all (· == .broken) with
    | true =>
      rw [List.all_eq_true.1 hall _ hflow] at hfirst
      simp only [hall, if_true, ownLinesAll] at hfirst hrest ⊢
      omega
    | false =>
      simp only [hall, Bool.false_eq_true, if_false] at hrest ⊢
      omega

end

/-! ## The machine keeps to its flows -/

/-- What commands can turn an output into. -/
def TypesetCommands (options : LayoutOptions) : List Command → List Char → List Char → Prop
  | [], out, final => final = out
  | command :: rest, out, final => ∃ mid,
    Typeset options command.flow command.indentation command.doc out mid ∧
      TypesetCommands options rest mid final

theorem typesetCommands_append {options : LayoutOptions} {xs ys : List Command}
    {out final : List Char} : TypesetCommands options (xs ++ ys) out final ↔
      ∃ mid, TypesetCommands options xs out mid ∧ TypesetCommands options ys mid final := by
  induction xs generalizing out with
  | nil => simp [TypesetCommands]
  | cons x xs ih =>
    simp only [List.cons_append, TypesetCommands, ih]
    constructor
    · rintro ⟨first, hfirst, mid, hmid, hrest⟩
      exact ⟨mid, ⟨first, hfirst, hmid⟩, hrest⟩
    · rintro ⟨mid, ⟨first, hfirst, hmid⟩, hrest⟩
      exact ⟨first, hfirst, mid, hmid, hrest⟩

theorem typesetAll_of_commands {options : LayoutOptions} {indentation : Indentation} {flow : Flow}
    {docs : List Doc} {out final : List Char}
    (h : TypesetCommands options (Command.all indentation flow docs) out final) :
    TypesetAll options [flow] indentation docs out final := by
  induction docs generalizing out with
  | nil =>
    obtain rfl : final = out := h
    exact .nil _
  | cons doc rest ih =>
    obtain ⟨mid, hdoc, hrest⟩ := h
    exact .cons (List.mem_singleton_self flow) hdoc (ih hrest)

theorem mem_flows (flow : Flow) : flow ∈ [Flow.broken, Flow.flat] := by
  cases flow <;> simp

namespace Machine

/-- A machine that has no hard line before it and has met no cursor. -/
structure HoldsNoHardLine (machine : Machine) : Prop where
  settled : machine.settled = []
  suffixes : machine.suffixes = []
  noHardLine : ∀ command ∈ machine.commands, NoHardLine command.doc

/-- Whatever the next machine's commands can lead to, those of the first can. -/
def Follows (options : LayoutOptions) (machine next : Machine) : Prop :=
  next.HoldsNoHardLine ∧ ∀ final, TypesetCommands options next.commands next.out final →
    TypesetCommands options machine.commands machine.out final

variable {options : LayoutOptions} {machine next : Machine} {indentation : Indentation}
  {flow : Flow} {doc : Doc} {rest : List Command}

/-- Commands take the place of the first one, and nothing is written. -/
theorem HoldsNoHardLine.push (hm : machine.HoldsNoHardLine)
    (hcommands : machine.commands = ⟨indentation, flow, doc⟩ :: rest) (remeasure : Bool)
    {pushed : List Command} (hsoft : ∀ command ∈ pushed, NoHardLine command.doc)
    (htypeset : ∀ out final, TypesetCommands options pushed out final →
      Typeset options flow indentation doc out final) :
    Follows options machine
      ({ machine with commands := rest, remeasure := remeasure }.push pushed) := by
  have hall := hm.noHardLine
  rw [hcommands] at hall
  refine ⟨⟨hm.settled, hm.suffixes, ?_⟩, ?_⟩
  · exact List.forall_mem_append.2 ⟨hsoft, (List.forall_mem_cons.1 hall).2⟩
  · intro final hfinal
    obtain ⟨mid, hpushed, hrest⟩ := typesetCommands_append.1 hfinal
    rw [hcommands]
    exact ⟨mid, htypeset _ _ hpushed, hrest⟩

/-- One document takes the place of the first one. -/
theorem HoldsNoHardLine.instead (hm : machine.HoldsNoHardLine)
    (hcommands : machine.commands = ⟨indentation, flow, doc⟩ :: rest) (remeasure : Bool)
    {command : Command} (hsoft : NoHardLine command.doc)
    (htypeset : ∀ out final,
      Typeset options command.flow command.indentation command.doc out final →
      Typeset options flow indentation doc out final) :
    Follows options machine
      ({ machine with commands := rest, remeasure := remeasure }.push [command]) := by
  refine hm.push hcommands remeasure (by simpa using hsoft) ?_
  rintro out final ⟨mid, hmid, hfinal⟩
  rw [show final = mid from hfinal]
  exact htypeset out mid hmid

/-- The first command is carried out. -/
theorem HoldsNoHardLine.write (hm : machine.HoldsNoHardLine)
    (hcommands : machine.commands = ⟨indentation, flow, doc⟩ :: rest)
    (hsettled : next.settled = []) (hsuffixes : next.suffixes = []) (hnext : next.commands = rest)
    (htypeset : Typeset options flow indentation doc machine.tail next.tail) :
    Follows options machine next := by
  have hall := hm.noHardLine
  rw [hcommands] at hall
  refine ⟨⟨hsettled, hsuffixes, hnext ▸ (List.forall_mem_cons.1 hall).2⟩, ?_⟩
  intro final hfinal
  rw [hcommands, show machine.out = machine.tail by simp [out, hm.settled]]
  refine ⟨next.tail, htypeset, ?_⟩
  rwa [hnext, show next.out = next.tail by simp [out, hsettled]] at hfinal

theorem HoldsNoHardLine.printLine {soft literal : Bool} (hm : machine.HoldsNoHardLine)
    (hcommands : machine.commands = ⟨indentation, flow, line false soft literal⟩ :: rest) :
    Follows options machine
      ({ machine with commands := rest }.printLine indentation flow false soft literal) := by
  have htypeset := @Typeset.line options flow indentation soft literal machine.tail
  cases flow with
  | flat =>
    cases soft with
    | true => exact hm.write hcommands hm.settled hm.suffixes rfl htypeset
    | false => exact hm.write hcommands hm.settled hm.suffixes rfl htypeset
  | broken =>
    simp only [Machine.printLine, breakLine, hm.suffixes, List.isEmpty_nil, Bool.not_true,
      Bool.false_eq_true, if_false]
    cases literal with
    | true => exact hm.write hcommands hm.settled rfl rfl htypeset
    | false => exact hm.write hcommands hm.settled rfl rfl htypeset

/-- The parts of a fill go either way. -/
theorem HoldsNoHardLine.printFill {parts : List Doc} (hm : machine.HoldsNoHardLine)
    (hcommands : machine.commands = ⟨indentation, flow, fill parts⟩ :: rest)
    (hparts : ∀ doc ∈ parts, NoHardLine doc) :
    Follows options machine
      ({ machine with commands := rest }.printFill options indentation flow parts) := by
  unfold Machine.printFill
  split
  · refine hm.push hcommands machine.remeasure (List.forall_mem_nil _) ?_
    rintro out final rfl
    exact .fill (.nil _)
  · next content =>
    refine hm.instead hcommands machine.remeasure (hparts content (by simp)) ?_
    intro out final hcontent
    exact .fill (.cons (mem_flows _) hcontent (.nil _))
  · next content separator =>
    refine hm.push hcommands machine.remeasure (by simpa using hparts) ?_
    rintro out final ⟨mid, hcontent, last, hseparator, rfl⟩
    exact .fill (.cons (mem_flows _) hcontent (.cons (mem_flows _) hseparator (.nil _)))
  · next content separator third more =>
    obtain ⟨hcontent, hseparator, hmore⟩ :
        NoHardLine content ∧ NoHardLine separator ∧ ∀ doc ∈ third :: more, NoHardLine doc := by
      simpa using hparts
    refine hm.push hcommands machine.remeasure
      (by simpa using ⟨hcontent, hseparator, NoHardLine.fill hmore⟩) ?_
    rintro out final ⟨mid, hfirst, after, hsecond, last, hothers, rfl⟩
    cases hothers with
    | fill hothers =>
      exact .fill (.cons (mem_flows _) hfirst (.cons (mem_flows _) hsecond hothers))

/-- Carrying out the first command keeps to its flow. -/
theorem HoldsNoHardLine.execute (hm : machine.HoldsNoHardLine)
    (hcommands : machine.commands = ⟨indentation, flow, doc⟩ :: rest) :
    Follows options machine
      ({ machine with commands := rest }.execute options ⟨indentation, flow, doc⟩) := by
  have hdoc : NoHardLine doc := hm.noHardLine _ (hcommands ▸ List.mem_cons_self ..)
  cases hdoc with
  | text h => exact hm.write hcommands hm.settled hm.suffixes rfl (.text _ _)
  | concat h =>
    refine hm.push hcommands machine.remeasure ?_ fun out final hparts =>
      .concat (typesetAll_of_commands hparts)
    intro command hmem
    obtain ⟨part, hpart, rfl⟩ := List.mem_map.1 hmem
    exact h part hpart
  | @group contents h =>
    obtain ⟨inner, remeasure, hgroup⟩ :=
      printGroup_eq options { machine with commands := rest } indentation flow contents false
    rw [show ({ machine with commands := rest } : Machine).execute options
      ⟨indentation, flow, .group contents false none⟩ = _ from hgroup]
    exact hm.instead hcommands remeasure h fun out final hcontents => .group inner hcontents
  | fill h => exact hm.printFill hcommands h
  | indent h =>
    exact hm.instead hcommands machine.remeasure h fun out final hcontents => .indent hcontents
  | align _ h =>
    exact hm.instead hcommands machine.remeasure h fun out final hcontents => .align hcontents
  | line soft literal => exact hm.printLine hcommands
  | ifBreak hb hf =>
    refine hm.instead hcommands machine.remeasure ?_ fun out final hside => .ifBreak hside
    cases flow with
    | broken => exact hb
    | flat => exact hf

theorem HoldsNoHardLine.step (hm : machine.HoldsNoHardLine)
    (hstep : machine.step options = some next) :
    Follows options machine next := by
  obtain ⟨⟨indentation, flow, doc⟩, rest, hcommands⟩ := exists_command hstep
  have hexecute : Follows options machine _ := hm.execute hcommands
  simp only [Machine.step, hcommands, settle_of_suffixes hexecute.1.suffixes,
    Option.some.injEq] at hstep
  rwa [hstep] at hexecute

/-- A run leads to an output that the flows of the commands allow. -/
theorem HoldsNoHardLine.run (hm : machine.HoldsNoHardLine) :
    TypesetCommands options machine.commands machine.out (machine.run options).out := by
  obtain ⟨⟨-, hfinal⟩, hcommands⟩ := run_keeps options (Follows options machine)
    (fun mid next hmid hstep => by
      have hnext := hmid.1.step hstep
      exact ⟨hnext.1, fun final h => hmid.2 final (hnext.2 final h)⟩) machine ⟨hm, fun _ h => h⟩
  exact hfinal _ (by rw [hcommands]; rfl)

end Machine

/-! ## A group by itself -/

section Choosing

variable {options : LayoutOptions} {doc contents : Doc} {states : Option (List Doc)}

/-- A group by itself is printed as the state that it chooses. -/
theorem render_group
    (h : (propagateBreaks (group contents false states)).1 = group contents false states) :
    ((group contents false states).render options).text.toList
      = (({ commands := [({} : Machine).chooseState options {} contents false states] } :
          Machine).run options).out.reverse := by
  have hstep : (initial (group contents false states)).step options
      = some { commands := [({} : Machine).chooseState options {} contents false states] } := by
    rw [initial, h]
    rfl
  simp only [render, Machine.run_of_step hstep, String.toList_ofList]

theorem hasRoom_start (hdoc : NoHardLine doc) (hwidth : options.printWidth < signedLimit) :
    ({} : Machine).hasRoom options ⟨{}, .flat, doc⟩
      = decide (doc.flatText.length ≤ options.printWidth) := by
  have hflat : ∀ command ∈ [(⟨{}, .flat, doc⟩ : Command)], command.Flat := by
    simpa using ⟨rfl, hdoc⟩
  have hfits := fits_iff_flat false (({} : Machine).room options) false 0 hflat
  rw [Bool.eq_iff_iff, decide_eq_true_iff]
  refine hfits.trans ?_
  have hroom : ({} : Machine).room options = options.printWidth := by
    rw [Machine.room, signed64_of_lt hwidth, Int.sub_zero]
    exact Machine.hold_of_fits ⟨by omega, by omega⟩ _
  simp only [commandText_cons, commandText_nil, List.append_nil, hroom]
  omega

/-- The state that a group chooses is the first one whose flat text fits. -/
theorem chooseState_start (contents : Doc) (states : Option (List Doc))
    (hwidth : options.printWidth < signedLimit)
    (h : ∀ state ∈ contents :: (states.getD []).tail, NoHardLine state) :
    ({} : Machine).chooseState options {} contents false states
      = match (contents :: (states.getD []).tail).find? fun state =>
            decide (state.flatText.length ≤ options.printWidth) with
        | some state => ⟨{}, .flat, state⟩
        | none => ⟨{}, .broken, mostExpanded contents states⟩ := by
  have hfind := List.find?_congr fun state hstate => hasRoom_start (h state hstate) hwidth
  cases hfound : (contents :: (states.getD []).tail).find? fun state =>
      decide (state.flatText.length ≤ options.printWidth) with
  | some state =>
    simp only [Machine.chooseState, Bool.false_eq_true, if_false, hfind, hfound]
  | none =>
    simp only [Machine.chooseState, Bool.false_eq_true, if_false, hfind, hfound]

/-- A document that fits is printed as its flat text. -/
theorem run_flat (hdoc : NoHardLine doc) (hwidth : options.printWidth < signedLimit)
    (hfits : doc.flatText.length ≤ options.printWidth) :
    (({ commands := [⟨{}, .flat, doc⟩] } : Machine).run options).out.reverse = doc.flatText := by
  have hm : ({ commands := [⟨{}, .flat, doc⟩] } : Machine).Smooth options := by
    refine ⟨rfl, rfl, by simpa using ⟨rfl, hdoc⟩, Int.le_refl 0, ?_⟩
    rw [signed64_of_lt hwidth]
    simpa using hfits
  rw [hm.run]
  simp [Machine.promised, Machine.out]

/-- A document whose lines are taken. -/
theorem typeset_run_broken (hdoc : NoHardLine doc) :
    Typeset options .broken {} doc []
      (({ commands := [⟨{}, .broken, doc⟩] } : Machine).run options).out := by
  have hm : ({ commands := [⟨{}, .broken, doc⟩] } : Machine).HoldsNoHardLine :=
    ⟨rfl, rfl, by simpa using hdoc⟩
  obtain ⟨mid, hdoc, hfinal⟩ := @Machine.HoldsNoHardLine.run options _ hm
  rwa [show _ = mid from hfinal]

end Choosing

/-- A group is printed as its flat text if that fits. Otherwise its lines are taken,
which end as many lines of the output at least, so that a group with lines of its
own is printed on one line exactly if its flat text fits. -/
theorem group_flat_iff_fits (options : LayoutOptions) {doc : Doc} (hdoc : NoHardLine doc)
    (hwidth : options.printWidth < signedLimit) :
    let printed := ((grouped doc).render options).text.toList
    (doc.flatText.length ≤ options.printWidth → printed = doc.flatText) ∧
      (options.printWidth < doc.flatText.length →
        Typeset options .broken {} doc [] printed.reverse ∧
          doc.ownLines .broken ≤ printed.count '\n') ∧
      (0 < doc.ownLines .broken →
        ('\n' ∉ printed ↔ doc.flatText.length ≤ options.printWidth)) := by
  intro printed
  have hprinted : printed = (({ commands := [({} : Machine).chooseState options {} doc false none] }
      : Machine).run options).out.reverse :=
    render_group (by simp [propagateBreaks, propagateBreaks_of_noHardLine hdoc])
  have hchoose := chooseState_start doc none hwidth (by simpa using hdoc)
  have hflat : doc.flatText.length ≤ options.printWidth → printed = doc.flatText := by
    intro hfits
    rw [hprinted, hchoose]
    simpa [hfits] using run_flat hdoc hwidth hfits
  have hbroken : options.printWidth < doc.flatText.length →
      Typeset options .broken {} doc [] printed.reverse ∧
        doc.ownLines .broken ≤ printed.count '\n' := by
    intro hwide
    have htypeset : Typeset options .broken {} doc [] printed.reverse := by
      rw [hprinted, hchoose, List.reverse_reverse]
      simpa [Nat.not_le.2 hwide, mostExpanded] using typeset_run_broken hdoc
    have hcount := htypeset.count_le
    exact ⟨htypeset, by simpa using hcount⟩
  refine ⟨hflat, hbroken, fun hlines => ⟨fun hone => ?_, fun hfits => ?_⟩⟩
  · rcases Nat.lt_or_ge options.printWidth doc.flatText.length with hwide | hfits
    · have hcount := (hbroken hwide).2
      rw [List.count_eq_zero.2 hone] at hcount
      omega
    · exact hfits
  · rw [hflat hfits]
    exact newline_notMem_flatText hdoc

/-- A line of its own, a group inside, a choice and a fill. -/
def sampleContents : Doc :=
  concat [text "a", indent (concat [space, grouped (concat [text "b", softline, text "c"])]),
    ifBreak (text ",") empty, fill [text "d", space, text "e"]]

theorem group_flat_iff_fits_sample :
    NoHardLine sampleContents ∧ sampleContents.flatText = "a bcd e".toList ∧
      sampleContents.ownLines .broken = 1 ∧
      ((grouped sampleContents).render { printWidth := 7 }).text.toList = "a bcd e".toList ∧
      '\n' ∈ ((grouped sampleContents).render { printWidth := 6 }).text.toList := by
  have hdoc : NoHardLine sampleContents := by
    have hgroup : NoHardLine (grouped (concat [text "b", softline, text "c"])) := by
      refine .group (.concat ?_)
      simpa using
        ⟨NoHardLine.text (by decide), NoHardLine.line true false, NoHardLine.text (by decide)⟩
    have hindent :
        NoHardLine (indent (concat [space, grouped (concat [text "b", softline, text "c"])])) := by
      refine .indent (.concat ?_)
      simpa using ⟨NoHardLine.line false false, hgroup⟩
    have hfill : NoHardLine (fill [text "d", space, text "e"]) := by
      refine .fill ?_
      simpa using
        ⟨NoHardLine.text (by decide), NoHardLine.line false false, NoHardLine.text (by decide)⟩
    refine .concat ?_
    simpa using ⟨NoHardLine.text (by decide), hindent,
      NoHardLine.ifBreak (NoHardLine.text (by decide)) (.concat (by simp)), hfill⟩
  have hfits := (group_flat_iff_fits { printWidth := 7 } hdoc (by decide)).1 (by decide)
  have hwide := (group_flat_iff_fits { printWidth := 6 } hdoc (by decide)).2.2 (by decide)
  refine ⟨hdoc, by decide, by decide, hfits.trans (by decide), ?_⟩
  exact Decidable.byContradiction fun hone => absurd (hwide.1 hone) (by decide)

/-- A line on the flat side of a choice is not printed at all where the choice falls
on the broken side, and a line with nothing after it keeps no indentation. -/
theorem group_drops_lines_and_margins :
    let choice : Doc := concat [text "aaa", ifBreak empty space]
    let blank : Doc := indent (concat [space, space, text "aaa"])
    (NoHardLine choice ∧ choice.ownLines .flat = 1 ∧ 2 < choice.flatText.length ∧
      ((grouped choice).render { printWidth := 2 }).text = "aaa") ∧
    (NoHardLine blank ∧ 2 < blank.flatText.length ∧
      ((grouped blank).render { printWidth := 2 }).text = "\n\n\taaa") := by
  intro choice blank
  have hchoice : NoHardLine choice := by
    refine .concat ?_
    simpa using ⟨NoHardLine.text (by decide),
      NoHardLine.ifBreak (.concat (by simp)) (NoHardLine.line false false)⟩
  have hblank : NoHardLine blank := by
    refine .indent (.concat ?_)
    simpa using ⟨NoHardLine.line false false, NoHardLine.text (by decide)⟩
  exact ⟨⟨hchoice, by decide, by decide, by decide +kernel⟩, hblank, by decide, by decide +kernel⟩

/-! ## The first state that fits -/

/-- Documents built from text within a line, sequences, indentation, and lines that
need not be taken. -/
inductive Simple : Doc → Prop
  | text {content : String} (h : '\n' ∉ content.toList) : Simple (text content)
  | concat {parts : List Doc} (h : ∀ doc ∈ parts, Simple doc) : Simple (concat parts)
  | indent {contents : Doc} (h : Simple contents) : Simple (indent contents)
  | line (soft literal : Bool) : Simple (line false soft literal)

theorem Simple.noHardLine {doc : Doc} (h : Simple doc) : NoHardLine doc := by
  induction h with
  | text h => exact .text h
  | concat _ ih => exact .concat ih
  | indent _ ih => exact .indent ih
  | line soft literal => exact .line soft literal

/-- The text of a document whose lines are all taken. -/
def brokenText (options : LayoutOptions) (doc : Doc) : List Char :=
  ((doc.strands options {}).foldl (Strand.put true) []).reverse

theorem TypesetAll.eq_of_parts {options : LayoutOptions} {parts : List Doc}
    {indentation : Indentation} {out final : List Char}
    (hparts : ∀ part ∈ parts, ∀ {out final : List Char},
      Typeset options .broken indentation part out final →
      final = (part.strands options indentation).foldl (Strand.put true) out)
    (ht : TypesetAll options [.broken] indentation parts out final) :
    final = (strandsAll options indentation parts).foldl (Strand.put true) out := by
  induction parts generalizing out with
  | nil =>
    cases ht
    rfl
  | cons part rest ih =>
    obtain ⟨hpart, hrest⟩ := List.forall_mem_cons.1 hparts
    cases ht with
    | cons hflow hfirst hothers =>
      obtain rfl := List.mem_singleton.1 hflow
      rw [strandsAll, List.foldl_append, ← hpart hfirst]
      exact ih hrest hothers

/-- There is one way to take all lines of a simple document. -/
theorem Simple.eq_of_typeset {options : LayoutOptions} {doc : Doc} (h : Simple doc)
    {indentation : Indentation} {out final : List Char}
    (ht : Typeset options .broken indentation doc out final) :
    final = (doc.strands options indentation).foldl (Strand.put true) out := by
  induction h generalizing indentation out final with
  | text h =>
    cases ht
    rfl
  | line soft literal =>
    cases ht
    rfl
  | indent _ ih =>
    cases ht with
    | indent ht => exact ih ht
  | concat _ ih =>
    cases ht with
    | concat ht => exact ht.eq_of_parts fun part hpart => ih part hpart

/-- A group with further states is printed as the first state whose flat text fits,
and if there is none as the last one with all its lines taken. -/
theorem conditionalGroup_prints_first_fit (options : LayoutOptions) {states : List Doc}
    (hstates : ∀ state ∈ states, Simple state) (hwidth : options.printWidth < signedLimit) :
    ((conditionalGroup states).render options).text.toList
      = match states.find? fun state => decide (state.flatText.length ≤ options.printWidth) with
        | some state => state.flatText
        | none =>
          match states.getLast? with
          | some last => last.brokenText options
          | none => [] := by
  have hsoft : ∀ state ∈ states, NoHardLine state := fun state h => (hstates state h).noHardLine
  have hall := propagateAll_of_noHardLine fun state h =>
    propagateBreaks_of_noHardLine (hsoft state h)
  cases states with
  | nil =>
    have hempty : NoHardLine empty := .concat (by simp)
    have hchoose := chooseState_start empty (some []) hwidth
      (by simpa using hempty)
    rw [conditionalGroup, render_group (by rfl), List.headD_nil, hchoose]
    simpa [flatText, flatTextAll, empty] using run_flat hempty hwidth (Nat.zero_le _)
  | cons first rest =>
    have hchoose := chooseState_start first (some (first :: rest)) hwidth
      (by simpa using hsoft)
    have hmarked : (propagateBreaks (group first false (some (first :: rest)))).1
        = group first false (some (first :: rest)) := by
      simp [propagateBreaks, hall, propagateBreaks_of_noHardLine (hsoft first (by simp))]
    rw [conditionalGroup, List.headD_cons, render_group hmarked, hchoose]
    simp only [Option.getD_some, List.tail_cons]
    cases hfind : (first :: rest).find? fun state =>
        decide (state.flatText.length ≤ options.printWidth) with
    | some state =>
      have hfits : state.flatText.length ≤ options.printWidth := by
        simpa using List.find?_some hfind
      exact run_flat (hsoft state (List.mem_of_find?_eq_some hfind)) hwidth hfits
    | none =>
      have hlast := List.getLast?_eq_some_getLast (List.cons_ne_nil first rest)
      have hmost : mostExpanded first (some (first :: rest))
          = (first :: rest).getLast (List.cons_ne_nil first rest) := by
        rw [mostExpanded, List.getLastD_eq_getLast?, hlast, Option.getD_some]
      have hmem := List.getLast_mem (List.cons_ne_nil first rest)
      simp only [hmost, hlast]
      rw [(hstates _ hmem).eq_of_typeset (typeset_run_broken (hsoft _ hmem))]
      rfl

/-- A state of seven characters, and one of four. -/
def sampleStates : List Doc :=
  [concat [text "aaa", space, text "bbb"], concat [text "aa", indent (concat [space, text "b"])]]

theorem conditionalGroup_prints_first_fit_sample :
    (∀ state ∈ sampleStates, Simple state) ∧
      ((conditionalGroup sampleStates).render { printWidth := 7 }).text.toList = "aaa bbb".toList ∧
      ((conditionalGroup sampleStates).render { printWidth := 6 }).text.toList = "aa b".toList ∧
      ((conditionalGroup sampleStates).render { printWidth := 3 }).text.toList
        = "aa\n\tb".toList := by
  have hwide : Simple (concat [text "aaa", space, text "bbb"]) := by
    refine .concat ?_
    simpa using ⟨Simple.text (by decide), Simple.line false false, Simple.text (by decide)⟩
  have hindented : Simple (indent (concat [space, text "b"])) := by
    refine .indent (.concat ?_)
    simpa using ⟨Simple.line false false, Simple.text (by decide)⟩
  have hnarrow : Simple (concat [text "aa", indent (concat [space, text "b"])]) := by
    refine .concat ?_
    simpa using ⟨Simple.text (by decide), hindented⟩
  have hstates : ∀ state ∈ sampleStates, Simple state := by
    simpa [sampleStates] using ⟨hwide, hnarrow⟩
  refine ⟨hstates, ?_, ?_, ?_⟩
  · exact (conditionalGroup_prints_first_fit _ hstates (by decide)).trans (by decide)
  · exact (conditionalGroup_prints_first_fit _ hstates (by decide)).trans (by decide)
  · exact (conditionalGroup_prints_first_fit _ hstates (by decide)).trans (by decide +kernel)

end LatexFormatter.Doc
