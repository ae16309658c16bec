import Std.Data.HashMap
import LatexFormatter.Error
import LatexFormatter.Grammar.Cursor
import LatexFormatter.ParseTree

/-
  What the grammar remembers while it reads. Alternatives are tried in order
  from the same place, so a failed attempt has nothing to undo; it only leaves
  behind what it expected at the furthest place it came to, for the report, and
  the outcome of the constructs it opened, so that trying them again costs
  nothing.
-/

namespace LatexFormatter

/-- The four ways to delimit math without naming an environment. -/
inductive MathDelimiter where
  | dollar
  | dollars
  | parentheses
  | brackets
  deriving Repr, DecidableEq, Hashable

namespace MathDelimiter

def opening : MathDelimiter → List Char
  | dollar => ['$']
  | dollars => ['$', '$']
  | parentheses => ['\\', '(']
  | brackets => ['\\', '[']

def closing : MathDelimiter → List Char
  | dollar => ['$']
  | dollars => ['$', '$']
  | parentheses => ['\\', ')']
  | brackets => ['\\', ']']

/-- Single dollars and parentheses stay in the line; the others are set
apart. -/
def kind : MathDelimiter → RecordKind
  | dollar => .inlineMath
  | parentheses => .inlineMath
  | dollars => .displayMath
  | brackets => .displayMath

end MathDelimiter

/-- The constructs that open a nested sequence. What each of them reads depends
only on where it starts. -/
inductive Construct where
  | group
  | math (delimiter : MathDelimiter)
  | arguments
  | mathEnvironment
  | environment
  deriving Repr, DecidableEq, Hashable

/-- What a successful rule hands on: where it stopped and what it read. -/
abbrev Found := Cursor × ParseTree

/-- The memory of the grammar: the furthest offset at which something failed,
what was expected there in ascending order and without repetition, and the
outcomes of constructs by start offset. -/
structure Memory where
  furthest : Nat
  expected : List String
  outcomes : Std.HashMap (Nat × Construct) (Option Found)

namespace Memory

/-- Nothing read yet. -/
def blank : Memory := ⟨0, [], ∅⟩

/-- Puts a string into an ascending list that has no repetition. -/
def insertOrdered (s : String) : List String → List String
  | [] => [s]
  | t :: rest =>
    if s < t then s :: t :: rest
    else if s = t then t :: rest
    else t :: insertOrdered s rest

/-- Notes that `what` was expected at an offset. Only the furthest offset
counts: a further one replaces the report, a nearer one leaves it as it is. -/
def expect (offset : Nat) (what : String) (memory : Memory) : Memory :=
  if memory.furthest < offset then { memory with furthest := offset, expected := [what] }
  else if offset = memory.furthest then
    { memory with expected := insertOrdered what memory.expected }
  else memory

/-- Keeps the outcome of a construct. -/
def keep (offset : Nat) (construct : Construct) (outcome : Option Found) (memory : Memory) :
    Memory :=
  { memory with outcomes := memory.outcomes.insert (offset, construct) outcome }

end Memory

/-- A rule in progress: it may fail, and what it remembers survives the
failure. -/
abbrev Reading := OptionT (StateM Memory)

namespace Reading

/-- Succeeds with the value, if there is one. -/
def ofOption {α : Type} (value : Option α) : Reading α := OptionT.mk (pure value)

/-- Fails, noting that `what` was expected. -/
def fail {α : Type} (offset : Nat) (what : String) : Reading α :=
  OptionT.mk (modifyGet fun memory => (none, memory.expect offset what))

/-- Reads the given characters, which are what is expected. -/
def literal (cs : List Char) (here : Cursor) : Reading Cursor :=
  if here.sees cs then pure (here.skip cs.length)
  else fail here.offset (String.ofList (Text.quotedChars cs))

end Reading

/-- How the outcome of a construct is obtained from the rule that reads it. -/
abbrev Retrieval := Cursor → Construct → Reading Found → Reading Found

/-- Runs the rule each time. -/
def Retrieval.fresh : Retrieval := fun _ _ rule => rule

/-- Runs the rule once for each start offset. A later attempt gets the same
outcome, and adds nothing to the report. -/
def Retrieval.cached : Retrieval := fun here construct rule =>
  OptionT.mk fun memory =>
    match memory.outcomes[(here.offset, construct)]? with
    | some outcome => (outcome, memory)
    | none =>
      let (outcome, after) := rule.run memory
      (outcome, after.keep here.offset construct outcome)

end LatexFormatter
