import LatexFormatter.Doc.Breaks
import LatexFormatter.Doc.Fits
import LatexFormatter.Text.Lines

/-
  Laying out a document within a number of columns. A stack of commands is
  worked off one at a time; `Machine.step` carries out the topmost and
  `Machine.run` goes on until there is none left. That this ends is
  `Machine.cost_step`: each step makes what is left to do cheaper.

  Columns and the room that is left are words of 64 bits with a sign. Every sum
  and difference is cut to such a word (`Machine.hold`), and widths are read as
  one (`signed64`), so a width of 2^63 or more is a negative number.

  Correspondence (program ↔ Lean):
    `Printer`, `Cmd`, `Mode` ↔ `Machine`, `Command`, `Flow`
    `Printer::trim`          ↔ `Machine.trim`
    `Printer::text`          ↔ `Machine.write`
    `Printer::group`         ↔ `Machine.printGroup`, `Machine.chooseState`
    `Printer::fill`          ↔ `Machine.printFill`
    `Printer::line`          ↔ `Machine.printLine`, `Machine.breakLine`, `Machine.startLine`
    `Printer::run`           ↔ `Machine.run`, by `Machine.step` and `Machine.execute`
    `render_doc`             ↔ `render`
  The end of the output that `Printer::trim` may reach back into is `tail`; what
  lies before the last cursor is `settled`.
-/

namespace LatexFormatter.Doc

/-- The state of a layout in progress. -/
structure Machine where
  /-- The column in which the next character goes. -/
  column : Int := 0
  /-- The output since the last cursor, last character first. Only this part can
  lose blanks at its end. -/
  tail : List Char := []
  /-- The output up to the last cursor, last character first. -/
  settled : List Char := []
  /-- What is to be printed, next one first. -/
  commands : List Command := []
  /-- What is kept back to the end of the line, last one first. -/
  suffixes : List Command := []
  /-- Whether a line was broken in a place that was taken to be flat. -/
  remeasure : Bool := false
  /-- The offsets of the cursors, last one first. There are at most two. -/
  cursors : List Nat := []

namespace Machine

/-- The output, last character first. -/
def out (machine : Machine) : List Char := machine.tail ++ machine.settled

/-- A number as the machine holds it. -/
def hold (n : Int) (machine : Machine) : Int :=
  signedWord n machine.out.length

theorem hold_of_fits {n : Int} (h : FitsSigned n) (machine : Machine) : machine.hold n = n :=
  signedWord_of_fits h

/-- The columns left on the line. -/
def room (options : LayoutOptions) (machine : Machine) : Int :=
  machine.hold (signed64 options.printWidth - machine.column)

/-- Puts commands on top, the first one topmost. -/
def push (commands : List Command) (machine : Machine) : Machine :=
  { machine with commands := commands ++ machine.commands }

/-- Takes up what was kept back, in the order in which it came. -/
def release (machine : Machine) : Machine :=
  { machine with commands := machine.suffixes.reverse ++ machine.commands, suffixes := [] }

/-- Removes the blanks at the end of the output, but none before a cursor. -/
def trim (machine : Machine) : Machine :=
  let tail := machine.tail.dropWhile isSpace
  { machine with
    column :=
      { machine with tail }.hold (machine.column - (machine.tail.takeWhile isSpace).length)
    tail }

/-- Writes text. -/
def write (content : List Char) (machine : Machine) : Machine :=
  let tail := content.reverse ++ machine.tail
  { machine with
    column :=
      if content.contains '\n' then (content.reverse.takeWhile (· != '\n')).length
      else { machine with tail }.hold (machine.column + content.length)
    tail }

/-- Starts a line with the given margin. -/
def startLine (margin : Margin) (machine : Machine) : Machine :=
  { machine with
    column := signed64 margin.length
    tail := margin.value.reverse ++ '\n' :: machine.tail }

/-- Marks the current place, unless two places have been marked. -/
def mark (machine : Machine) : Machine :=
  if machine.cursors.length < 2 then
    { machine with
      tail := []
      settled := machine.out
      cursors := utf8Length machine.out :: machine.cursors }
  else machine

/-- Whether these commands, and what comes after them up to the end of the line,
have room. -/
def hasRoom (options : LayoutOptions) (machine : Machine) (command : Command) : Bool :=
  fits false (machine.room options) (!machine.suffixes.isEmpty) 0 (command :: machine.commands)

/-- Whether a command by itself has room without breaking. -/
def hasRoomAlone (options : LayoutOptions) (machine : Machine) (command : Command) : Bool :=
  fits true (machine.room options) (!machine.suffixes.isEmpty) 0 [command]

/-- How a group is printed: flat if it fits, otherwise as the first further state
that fits flat, and if none does, or the group has to break, broken and most
expanded. -/
def chooseState (options : LayoutOptions) (machine : Machine) (indentation : Indentation)
    (contents : Doc) (broken : Bool) (states : Option (List Doc)) : Command :=
  let candidates := if broken then [] else contents :: (states.getD []).tail
  match candidates.find? fun state => machine.hasRoom options ⟨indentation, .flat, state⟩ with
  | some state => ⟨indentation, .flat, state⟩
  | none => ⟨indentation, .broken, mostExpanded contents states⟩

/-- Prints a group. Inside something flat there is nothing to decide, unless a
line was broken there after all. -/
def printGroup (options : LayoutOptions) (indentation : Indentation) (flow : Flow)
    (contents : Doc) (broken : Bool) (states : Option (List Doc)) (machine : Machine) : Machine :=
  if flow == .flat && !machine.remeasure then
    machine.push [⟨indentation, flow.inside broken, contents⟩]
  else
    let machine := { machine with remeasure := false }
    machine.push [machine.chooseState options indentation contents broken states]

/-- Prints the first piece of a fill, and the separator after it, flat if that
and the next piece fit. The rest of the fill is left for later. -/
def printFill (options : LayoutOptions) (indentation : Indentation) (flow : Flow)
    (parts : List Doc) (machine : Machine) : Machine :=
  match parts with
  | [] => machine
  | [content] =>
    let fit := machine.hasRoomAlone options ⟨indentation, .flat, content⟩
    machine.push [⟨indentation, if fit then .flat else .broken, content⟩]
  | [content, separator] =>
    let fit := machine.hasRoomAlone options ⟨indentation, .flat, content⟩
    let flow : Flow := if fit then .flat else .broken
    machine.push [⟨indentation, flow, content⟩, ⟨indentation, flow, separator⟩]
  | content :: separator :: next :: rest =>
    let fit := machine.hasRoomAlone options ⟨indentation, .flat, content⟩
    let bothFit :=
      machine.hasRoomAlone options ⟨indentation, .flat, concat [content, separator, next]⟩
    machine.push [
      ⟨indentation, if bothFit || fit then .flat else .broken, content⟩,
      ⟨indentation, if bothFit then .flat else .broken, separator⟩,
      ⟨indentation, flow, fill (next :: rest)⟩]

/-- Ends the line. What was kept back comes first, and the line break after
it. -/
def breakLine (indentation : Indentation) (flow : Flow) (hard soft literal : Bool)
    (machine : Machine) : Machine :=
  if !machine.suffixes.isEmpty then
    (machine.push [⟨indentation, flow, line hard soft literal⟩]).release
  else if literal then machine.startLine (indentation.roots.headD {})
  else machine.trim.startLine indentation.margin

/-- Prints a place where a line may end. -/
def printLine (indentation : Indentation) (flow : Flow) (hard soft literal : Bool)
    (machine : Machine) : Machine :=
  match flow, hard with
  | .flat, false => if soft then machine else machine.write [' ']
  | .flat, true => { machine with remeasure := true }.breakLine indentation flow hard soft literal
  | .broken, _ => machine.breakLine indentation flow hard soft literal

/-- Carries out a command that has been taken off the stack. -/
def execute (options : LayoutOptions) (command : Command) (machine : Machine) : Machine :=
  let ⟨indentation, flow, doc⟩ := command
  match doc with
  | text content => machine.write content.toList
  | concat parts => machine.push (Command.all indentation flow parts)
  | cursor => machine.mark
  | indent contents => machine.push [⟨indentation.indent options, flow, contents⟩]
  | align alignment contents =>
    machine.push [⟨indentation.align options alignment, flow, contents⟩]
  | .trim => machine.trim
  | group contents broken states =>
    machine.printGroup options indentation flow contents broken states
  | fill parts => machine.printFill options indentation flow parts
  | ifBreak broken flat => machine.push [⟨indentation, flow, flow.choose broken flat⟩]
  | lineSuffix contents =>
    { machine with suffixes := ⟨indentation, flow, contents⟩ :: machine.suffixes }
  | lineSuffixBoundary =>
    if machine.suffixes.isEmpty then machine
    else machine.push [⟨indentation, flow, line true false false⟩]
  | line hard soft literal => machine.printLine indentation flow hard soft literal
  | breakParent => machine

/-- Takes up what was kept back when nothing else is left. -/
def settle (machine : Machine) : Machine :=
  if machine.commands.isEmpty then machine.release else machine

/-- Carries out the next command, if there is one. -/
def step (options : LayoutOptions) (machine : Machine) : Option Machine :=
  match machine.commands with
  | [] => none
  | command :: rest => some (({ machine with commands := rest }.execute options command).settle)

/-! ## Every step makes progress -/

/-- What is left to do. A command that is kept back costs one more, for taking
it up again. -/
def cost (machine : Machine) : Nat :=
  commandCost machine.commands + commandCost machine.suffixes + machine.suffixes.length

@[simp] theorem cost_push (commands : List Command) (machine : Machine) :
    (machine.push commands).cost = commandCost commands + machine.cost := by
  simp [push, cost]; omega

@[simp] theorem commandCost_reverse (commands : List Command) :
    commandCost commands.reverse = commandCost commands := by
  induction commands with
  | nil => rfl
  | cons command rest ih => simp [commandCost, ih]; omega

theorem cost_release (machine : Machine) :
    machine.release.cost + machine.suffixes.length = machine.cost := by
  simp [release, cost, commandCost]; omega

@[simp] theorem cost_trim (machine : Machine) : machine.trim.cost = machine.cost := rfl

@[simp] theorem cost_write (content : List Char) (machine : Machine) :
    (machine.write content).cost = machine.cost := rfl

@[simp] theorem cost_startLine (margin : Margin) (machine : Machine) :
    (machine.startLine margin).cost = machine.cost := rfl

@[simp] theorem cost_mark (machine : Machine) : machine.mark.cost = machine.cost := by
  unfold mark; split <;> rfl

theorem cost_settle (machine : Machine) : machine.settle.cost ≤ machine.cost := by
  unfold settle
  split
  · have := cost_release machine; omega
  · exact Nat.le_refl _

theorem cost_candidate {contents state : Doc} {states : Option (List Doc)}
    (h : state ∈ contents :: (states.getD []).tail) :
    state.cost ≤ contents.cost + costStates states := by
  rcases List.mem_cons.1 h with rfl | h
  · omega
  · cases states with
    | none => simp at h
    | some states =>
      have := cost_le_costAll (List.mem_of_mem_tail (l := states) h)
      simp only [costStates]; omega

theorem cost_chooseState (options : LayoutOptions) (machine : Machine) (indentation : Indentation)
    (contents : Doc) (broken : Bool) (states : Option (List Doc)) :
    (machine.chooseState options indentation contents broken states).doc.cost
      ≤ contents.cost + costStates states := by
  simp only [chooseState]
  split
  · next state found =>
    have member := List.mem_of_find?_eq_some found
    split at member
    · simp at member
    · exact cost_candidate member
  · exact cost_mostExpanded contents states

theorem cost_printGroup (options : LayoutOptions) (indentation : Indentation) (flow : Flow)
    (contents : Doc) (broken : Bool) (states : Option (List Doc)) (machine : Machine) :
    (machine.printGroup options indentation flow contents broken states).cost
      < (group contents broken states).cost + machine.cost := by
  unfold printGroup
  split
  · simp only [cost_push, commandCost, Doc.cost]; omega
  · have := cost_chooseState options { machine with remeasure := false } indentation contents
      broken states
    simp only [cost_push, commandCost, Doc.cost]
    simp only [cost] at *
    omega

theorem cost_printFill (options : LayoutOptions) (indentation : Indentation) (flow : Flow)
    (parts : List Doc) (machine : Machine) :
    (machine.printFill options indentation flow parts).cost
      < (fill parts).cost + machine.cost := by
  unfold printFill
  split <;>
    simp only [cost_push, commandCost, Doc.cost, costAll, List.length_cons, List.length_nil] <;>
    omega

theorem cost_breakLine (indentation : Indentation) (flow : Flow) (hard soft literal : Bool)
    (machine : Machine) :
    (machine.breakLine indentation flow hard soft literal).cost < 1 + machine.cost := by
  unfold breakLine
  split
  · next kept =>
    have := cost_release (machine.push [⟨indentation, flow, line hard soft literal⟩])
    have : 0 < machine.suffixes.length := by
      simpa [List.length_pos_iff] using kept
    simp only [cost_push, commandCost, Doc.cost] at *
    simp only [push] at *
    omega
  · split <;> simp only [cost_startLine, cost_trim] <;> omega

theorem cost_printLine (indentation : Indentation) (flow : Flow) (hard soft literal : Bool)
    (machine : Machine) :
    (machine.printLine indentation flow hard soft literal).cost < 1 + machine.cost := by
  unfold printLine
  split
  · split <;> simp
  · exact cost_breakLine indentation _ _ soft literal { machine with remeasure := true }
  · exact cost_breakLine indentation _ _ soft literal machine

theorem cost_execute (options : LayoutOptions) (command : Command) (machine : Machine) :
    (machine.execute options command).cost < command.doc.cost + machine.cost := by
  obtain ⟨indentation, flow, doc⟩ := command
  cases doc with
  | group contents broken states =>
    exact cost_printGroup options indentation flow contents broken states machine
  | fill parts => exact cost_printFill options indentation flow parts machine
  | line hard soft literal => exact cost_printLine indentation flow hard soft literal machine
  | ifBreak broken flat =>
    have := cost_choose_le flow broken flat
    simp only [execute, cost_push, commandCost, Doc.cost]; omega
  | lineSuffix contents =>
    simp only [execute, cost, commandCost, Doc.cost, List.length_cons]; omega
  | lineSuffixBoundary =>
    simp only [execute]
    split <;> simp only [cost_push, commandCost, Doc.cost] <;> omega
  | text content => simp only [execute, cost_write, Doc.cost]; omega
  | concat parts => simp only [execute, cost_push, commandCost_all, Doc.cost]; omega
  | indent contents => simp only [execute, cost_push, commandCost, Doc.cost]; omega
  | align alignment contents => simp only [execute, cost_push, commandCost, Doc.cost]; omega
  | breakParent => simp only [execute, Doc.cost]; omega
  | trim => simp only [execute, cost_trim, Doc.cost]; omega
  | cursor => simp only [execute, cost_mark, Doc.cost]; omega

/-- A step leaves less to do. -/
theorem cost_step {options : LayoutOptions} {machine next : Machine}
    (h : machine.step options = some next) : next.cost < machine.cost := by
  unfold step at h
  split at h
  · simp at h
  · next command rest eq =>
    simp only [Option.some.injEq] at h
    have settled :=
      cost_settle ({ machine with commands := rest }.execute options command)
    have executed := cost_execute options command { machine with commands := rest }
    rw [h] at settled
    simp only [cost] at *
    simp only [eq, commandCost]
    omega

/-- Carries out commands until none is left. -/
def run (options : LayoutOptions) (machine : Machine) : Machine :=
  match _h : machine.step options with
  | none => machine
  | some next => run options next
termination_by machine.cost
decreasing_by exact cost_step _h

end Machine

/-! ## Laying out a document -/

/-- What laying out a document gives: its text, and the offset of the first
cursor in it. -/
structure Printed where
  text : String
  cursor : Option Nat
  deriving Repr, DecidableEq

/-- The machine before the first step. -/
def initial (doc : Doc) : Machine :=
  { commands := [⟨{}, .broken, doc.propagateBreaks.1⟩] }

/-- Lays out a document. -/
def render (options : LayoutOptions) (doc : Doc) : Printed :=
  let machine := (initial doc).run options
  { text := String.ofList machine.out.reverse, cursor := machine.cursors.getLast? }

end LatexFormatter.Doc
