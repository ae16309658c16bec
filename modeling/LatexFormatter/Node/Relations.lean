import Std.Data.HashMap
import LatexFormatter.Node.Path

/-
  The nodes of a tree in document order, and how they are related. A tree is
  walked from the root, arguments before content; from one walk come the parent
  and the neighbours of every node. The result is a snapshot: it does not follow
  later edits.
-/

namespace LatexFormatter

/-- A node met on a walk: its address, the number of children in the list it
lies in, and the node itself. -/
structure Visit where
  path : Path
  siblings : Nat
  node : Node

namespace Node

mutual

/-- The visits of a walk that starts at a node with the given address. -/
def walkFrom (path : Path) (siblings : Nat) : Node → List Visit
  | list content => ⟨path, siblings, list content⟩ :: walkList path .content content.length 0 content
  | string content => [⟨path, siblings, string content⟩]
  | whitespace => [⟨path, siblings, whitespace⟩]
  | parbreak => [⟨path, siblings, parbreak⟩]
  | command name args => ⟨path, siblings, command name args⟩ :: walkArgs path args
  | environment name args body =>
    ⟨path, siblings, environment name args body⟩ ::
      (walkArgs path args ++ walkList path .content body.length 0 body)
  | mathEnvironment name body =>
    ⟨path, siblings, mathEnvironment name body⟩ :: walkList path .content body.length 0 body
  | inlineMath content =>
    ⟨path, siblings, inlineMath content⟩ :: walkList path .content content.length 0 content
  | displayMath content =>
    ⟨path, siblings, displayMath content⟩ :: walkList path .content content.length 0 content
  | group content =>
    ⟨path, siblings, group content⟩ :: walkList path .content content.length 0 content
  | script mark base => ⟨path, siblings, script mark base⟩ :: walkBase path base
  | verbatim content => [⟨path, siblings, verbatim content⟩]
  | verb delimiter content => [⟨path, siblings, verb delimiter content⟩]
  | commentEnvironment content => [⟨path, siblings, commentEnvironment content⟩]
  | comment content sameline => [⟨path, siblings, comment content sameline⟩]
  | arguments content =>
    ⟨path, siblings, arguments content⟩ :: walkList path .content content.length 0 content

/-- The visits of the children of a slot, from index `index` on. -/
def walkList (path : Path) (slot : Slot) (siblings index : Nat) : List Node → List Visit
  | [] => []
  | node :: rest =>
    walkFrom (path.child slot index) siblings node ++ walkList path slot siblings (index + 1) rest

/-- The visits of optional arguments. -/
def walkArgs (path : Path) : Option (List Node) → List Visit
  | none => []
  | some content => walkList path .args content.length 0 content

/-- The visits of the base of a script, which has no siblings. -/
def walkBase (path : Path) : Option Node → List Visit
  | none => []
  | some base => walkFrom (path.child .content 0) 1 base

end

/-- All nodes of a tree: the root first, then the arguments and the content of
each node before what follows it. -/
def walk (root : Node) : List Visit := walkFrom [] 1 root

end Node

/-- The nodes around a node: the one that holds it and the ones beside it in the
same list. -/
structure Neighbours where
  parent : Path
  previous : Option Path
  next : Option Path
  deriving Repr, DecidableEq

/-- The nodes around the one visited; the root has none. -/
def Visit.neighbours? (visit : Visit) : Option Neighbours :=
  match visit.path.parent?, visit.path.getLast? with
  | some parent, some step => some {
      parent := parent
      previous :=
        if step.index == 0 then none else some (visit.path.sibling (step.index - 1))
      next :=
        if step.index + 1 < visit.siblings then some (visit.path.sibling (step.index + 1))
        else none }
  | _, _ => none

/-- The relations between the nodes of one tree. -/
structure Relations where
  neighbours : Std.HashMap Path Neighbours
  /-- The number of nodes, the root included. -/
  size : Nat

namespace Relations

/-- The relations of a tree. -/
def ofNode (root : Node) : Relations where
  neighbours := Std.HashMap.ofList
    (root.walk.filterMap fun visit => visit.neighbours?.map fun around => (visit.path, around))
  size := root.walk.length

/-- The address of the node that holds the one at `path`. -/
def parent? (relations : Relations) (path : Path) : Option Path :=
  relations.neighbours[path]?.map Neighbours.parent

/-- The address of the node before the one at `path`. -/
def previous? (relations : Relations) (path : Path) : Option Path :=
  relations.neighbours[path]?.bind Neighbours.previous

/-- The address of the node after the one at `path`. -/
def next? (relations : Relations) (path : Path) : Option Path :=
  relations.neighbours[path]?.bind Neighbours.next

end Relations

end LatexFormatter
