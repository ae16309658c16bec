import LatexFormatter.Node.Basic

/-
  Removing excess space. In every list of a tree a run of space nodes becomes
  one, a paragraph break if the run held one, and disappears altogether next to
  a block environment and at either end of an environment's body. Nothing but
  space nodes is touched, and doing it again changes nothing.
-/

namespace LatexFormatter.Node

/-- Whether space is dropped beside this: the end of the list, which counts in
the body of an environment (`inBody`), or a neighbour, which counts if it is a
block. -/
def dropsSpace (inBody : Bool) : Option Node → Bool
  | none => inBody
  | some neighbour => neighbour.isEnvironmentLike

/-- What remains of a run of space between two neighbours. The run is absent, or
tells whether it held a paragraph break. -/
def gap (inBody : Bool) (before : Option Node) (run : Option Bool) (after : Option Node) :
    List Node :=
  match run with
  | none => []
  | some broken =>
    if dropsSpace inBody before || dropsSpace inBody after then []
    else if broken then [parbreak] else [whitespace]

/-- Collapses the runs of space of a list, given the last node before it that is
no space and the run of space that has been met since. -/
def collapseFrom (inBody : Bool) (before : Option Node) (run : Option Bool) :
    List Node → List Node
  | [] => gap inBody before run none
  | node :: rest =>
    match node with
    | whitespace => collapseFrom inBody before (some (run.getD false)) rest
    | parbreak => collapseFrom inBody before (some true) rest
    | node => gap inBody before run (some node) ++ node :: collapseFrom inBody (some node) none rest

/-- Collapses the runs of space of a list. -/
def collapse (inBody : Bool) (items : List Node) : List Node := collapseFrom inBody none none items

/-- Collapses a list whose members are in order already, and adds what that
removes to what was removed in them. -/
def collapseCounting (inBody : Bool) (tidied : List Node × Nat) : List Node × Nat :=
  let items := collapse inBody tidied.1
  (items, tidied.2 + (tidied.1.length - items.length))

mutual

/-- Removes excess space throughout a tree, and counts the nodes removed. -/
def tidy : Node → Node × Nat
  | list content =>
    let (items, removed) := collapseCounting false (tidyAll content)
    (list items, removed)
  | command name args =>
    let (args, removed) := tidyArgs args
    (command name args, removed)
  | environment name args body =>
    let (args, removedArgs) := tidyArgs args
    let (items, removed) := collapseCounting true (tidyAll body)
    (environment name args items, removedArgs + removed)
  | mathEnvironment name body =>
    let (items, removed) := collapseCounting true (tidyAll body)
    (mathEnvironment name items, removed)
  | inlineMath content =>
    let (items, removed) := collapseCounting false (tidyAll content)
    (inlineMath items, removed)
  | displayMath content =>
    let (items, removed) := collapseCounting false (tidyAll content)
    (displayMath items, removed)
  | group content =>
    let (items, removed) := collapseCounting false (tidyAll content)
    (group items, removed)
  | script mark base =>
    let (base, removed) := tidyBase base
    (script mark base, removed)
  | arguments content =>
    let (items, removed) := collapseCounting false (tidyAll content)
    (arguments items, removed)
  | string content => (string content, 0)
  | whitespace => (whitespace, 0)
  | parbreak => (parbreak, 0)
  | verbatim content => (verbatim content, 0)
  | verb delimiter content => (verb delimiter content, 0)
  | commentEnvironment content => (commentEnvironment content, 0)
  | comment content sameline => (comment content sameline, 0)

/-- Removes excess space in each tree of a list. -/
def tidyAll : List Node → List Node × Nat
  | [] => ([], 0)
  | node :: rest =>
    let (node, removed) := tidy node
    let (rest, removedRest) := tidyAll rest
    (node :: rest, removed + removedRest)

/-- Removes excess space in optional arguments. -/
def tidyArgs : Option (List Node) → Option (List Node) × Nat
  | none => (none, 0)
  | some content =>
    let (items, removed) := collapseCounting false (tidyAll content)
    (some items, removed)

/-- Removes excess space in the base of a script. -/
def tidyBase : Option Node → Option Node × Nat
  | none => (none, 0)
  | some base =>
    let (base, removed) := tidy base
    (some base, removed)

end

/-- The tree without excess space. -/
def normalize (node : Node) : Node := node.tidy.1

/-- How many nodes normalization removes. -/
def excess (node : Node) : Nat := node.tidy.2

end LatexFormatter.Node
