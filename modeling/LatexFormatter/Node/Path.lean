import LatexFormatter.Error
import LatexFormatter.Node.Basic

/-
  Addresses in a tree. A path names a node by the slots and indices that lead to
  it from the root; through it nodes are read, replaced, and the lists they keep
  are edited. An edit by path changes what lies at the path and nothing else.
-/

namespace LatexFormatter

/-- One step down: which slot, and which of the children in it. -/
structure Step where
  slot : Slot
  index : Nat
  deriving Repr, DecidableEq, Hashable

/-- The address of a node, from the root down. The empty path is the root. -/
abbrev Path := List Step

namespace Path

/-- The address of a child. -/
def child (path : Path) (slot : Slot) (index : Nat) : Path := path ++ [⟨slot, index⟩]

/-- The address of the node that holds this one. -/
def parent? : Path → Option Path
  | [] => none
  | step :: rest => some ((step :: rest).dropLast)

/-- The same address with another index in its last step. -/
def sibling (path : Path) (index : Nat) : Path :=
  match path.getLast? with
  | none => path
  | some step => path.dropLast ++ [{ step with index := index }]

/-- A step in writing. -/
def stepText (step : Step) : String := s!"{step.slot.name}[{step.index}]"

/-- An address in writing. -/
def display (path : Path) : String := "/" ++ "/".intercalate (path.map stepText)

end Path

namespace Node

/-- The child a step leads to. -/
def child? (node : Node) (step : Step) : Option Node :=
  (node.children? step.slot).bind fun items => items[step.index]?

/-- The child that an edit reaches by a step: the base of a script, or an entry of
the list in the slot. -/
def editable? (node : Node) (step : Step) : Option Node :=
  match node, step.slot with
  | script _ base, .content => if step.index == 0 then base else none
  | node, slot => (node.list? slot).bind fun items => items[step.index]?

/-- Puts another child where a step leads. -/
def withChild (node : Node) (step : Step) (child : Node) : Node :=
  match node, step.slot with
  | script mark (some _), .content => if step.index == 0 then script mark (some child) else node
  | node, slot =>
    match node.list? slot with
    | some items => node.withList slot (items.set step.index child)
    | none => node

/-- The node at a path. -/
def get? (node : Node) : Path → Option Node
  | [] => some node
  | step :: rest => (node.child? step).bind fun child => child.get? rest

/-- Edits the node at a path, if there is one, by a function that also has
something to tell. -/
def editAt {α : Type} (edit : Node → α × Node) (node : Node) : Path → Option (α × Node)
  | [] => some (edit node)
  | step :: rest =>
    (node.editable? step).bind fun child =>
      (child.editAt edit rest).map fun (told, edited) => (told, node.withChild step edited)

/-- Puts a node in the place of the one at a path, which is handed back. -/
def replaceAt (node : Node) (path : Path) (replacement : Node) : Option (Node × Node) :=
  node.editAt (fun old => (old, replacement)) path

/-- Puts `replacement` in the place of the children from `start` up to `stop` in
the list of a slot, and hands back what was there. -/
def splice (slot : Slot) (start stop : Nat) (replacement : List Node) (node : Node) :
    Except TreeFault (List Node × Node) :=
  match node.list? slot with
  | none => .error (.noList node.kind slot.name)
  | some items =>
    if stop < start || items.length < stop then .error (.outOfBounds start stop items.length)
    else .ok ((items.take stop).drop start,
      node.withList slot (items.take start ++ replacement ++ items.drop stop))

/-- Splices a list of the node at a path. If that fails, the tree stays as it
is. -/
def spliceAt (node : Node) (path : Path) (slot : Slot) (start stop : Nat)
    (replacement : List Node) : Option (Except TreeFault (List Node) × Node) :=
  node.editAt (fun target =>
    match target.splice slot start stop replacement with
    | .ok (removed, edited) => (.ok removed, edited)
    | .error fault => (.error fault, target)) path

end Node

end LatexFormatter
