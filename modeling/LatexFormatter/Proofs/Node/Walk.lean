import Mathlib.Data.List.Lex
import LatexFormatter.Node.Relations
import LatexFormatter.Proofs.Node.Editing

/-
  What a walk visits. Reading by path, walking and the relations of a tree are
  written apart from each other; here they are shown to speak of one tree. A walk
  has one visit for each occupied path (`mem_walk`, `pairwise_walk`), in the order
  in which the paths are read: a node before what it holds, arguments before
  content, and children by index. The relations are those of the paths: the parent
  is one step up, and the neighbours are the paths beside it that are occupied.
-/

namespace LatexFormatter

/-! ## The order of paths -/

/-- Arguments come before content, and within a slot the smaller index before the
larger. -/
def Step.Before (step other : Step) : Prop :=
  (step.slot = .args ∧ other.slot = .content) ∨
    (step.slot = other.slot ∧ step.index < other.index)

/-- Document order: a path before its extensions, otherwise by the first step in
which the two differ. -/
def Path.Before (path other : Path) : Prop := List.Lex Step.Before path other

instance : Std.Asymm Step.Before where
  asymm step other h h' := by
    rcases h with ⟨hargs, hcontent⟩ | ⟨hslot, hlt⟩
    · rcases h' with ⟨hargs', -⟩ | ⟨hslot', -⟩
      · exact absurd (hcontent.symm.trans hargs') (by decide)
      · exact absurd ((hcontent.symm.trans hslot').trans hargs) (by decide)
    · rcases h' with ⟨hargs', hcontent'⟩ | ⟨-, hlt'⟩
      · exact absurd ((hcontent'.symm.trans hslot).trans hargs') (by decide)
      · omega

/-- One visit before another in document order. -/
def Visit.Before (visit later : Visit) : Prop := visit.path.Before later.path

theorem Step.Before.append {step other : Step} (h : step.Before other) (path rest rest' : Path) :
    Path.Before (path ++ step :: rest) (path ++ other :: rest') :=
  List.Lex.append_left Step.Before (.rel h) path

namespace Path

theorem Before.ne {path other : Path} (h : path.Before other) : path ≠ other := by
  intro heq
  subst heq
  exact asymm (r := List.Lex Step.Before) h h

theorem before_append_cons (path : Path) (step : Step) (rest : Path) :
    path.Before (path ++ step :: rest) := by
  have h := List.Lex.append_left Step.Before (List.Lex.nil (a := step) (l := rest)) path
  rwa [List.append_nil] at h

@[simp] theorem parent?_append (front : Path) (step : Step) :
    parent? (front ++ [step]) = some front := by
  cases front with
  | nil => rfl
  | cons head rest =>
    show some ((head :: rest) ++ [step]).dropLast = some (head :: rest)
    rw [List.dropLast_concat]

@[simp] theorem sibling_append (front : Path) (step : Step) (index : Nat) :
    sibling (front ++ [step]) index = front ++ [⟨step.slot, index⟩] := by
  simp [sibling]

end Path

namespace Node

/-! ## The children of a node -/

/-- The children in a slot, none if the node has no such slot. -/
def row (node : Node) (slot : Slot) : List Node := (node.children? slot).getD []

theorem child?_eq_row (node : Node) (step : Step) :
    node.child? step = (node.row step.slot)[step.index]? := by
  rw [child?, row]
  cases node.children? step.slot <;> rfl

theorem sizeOf_lt_of_mem_row {node child : Node} {slot : Slot} (h : child ∈ node.row slot) :
    sizeOf child < sizeOf node := by
  cases node with
  | command name args =>
    cases slot with
    | content => cases h
    | args =>
      cases args with
      | none => cases h
      | some items =>
        have := List.sizeOf_lt_of_mem (show child ∈ items from h)
        simp only [command.sizeOf_spec, Option.some.sizeOf_spec]
        omega
  | environment name args body =>
    cases slot with
    | content =>
      have := List.sizeOf_lt_of_mem (show child ∈ body from h)
      simp only [environment.sizeOf_spec]
      omega
    | args =>
      cases args with
      | none => cases h
      | some items =>
        have := List.sizeOf_lt_of_mem (show child ∈ items from h)
        simp only [environment.sizeOf_spec, Option.some.sizeOf_spec]
        omega
  | script mark base =>
    cases slot with
    | args => cases h
    | content =>
      cases base with
      | none => cases h
      | some base =>
        cases List.mem_singleton.1 (show child ∈ [base] from h)
        simp only [script.sizeOf_spec, Option.some.sizeOf_spec]
        omega
  | list items | mathEnvironment _ items | inlineMath items | displayMath items | group items
  | arguments items =>
    cases slot with
    | args => cases h
    | content =>
      have := List.sizeOf_lt_of_mem (show child ∈ items from h)
      simp only [list.sizeOf_spec, mathEnvironment.sizeOf_spec, inlineMath.sizeOf_spec,
        displayMath.sizeOf_spec, group.sizeOf_spec, arguments.sizeOf_spec]
      omega
  | _ => cases slot <;> cases h

/-- What holds of a node if it holds of its children holds of all nodes. -/
theorem induction_on_rows {motive : Node → Prop}
    (step : ∀ node, (∀ slot, ∀ child ∈ node.row slot, motive child) → motive node) (node : Node) :
    motive node :=
  step node fun _ child _ => induction_on_rows step child
termination_by sizeOf node
decreasing_by exact sizeOf_lt_of_mem_row ‹_›

/-- A walk visits a node, then the arguments and then the content. -/
theorem walkFrom_eq (path : Path) (siblings : Nat) (node : Node) :
    node.walkFrom path siblings = ⟨path, siblings, node⟩ ::
      (walkList path .args (node.row .args).length 0 (node.row .args) ++
        walkList path .content (node.row .content).length 0 (node.row .content)) := by
  cases node with
  | command name args =>
    cases args <;> simp [walkFrom, walkArgs, walkList, row, children?, list?]
  | environment name args body =>
    cases args <;> simp [walkFrom, walkArgs, walkList, row, children?, list?]
  | script mark base =>
    cases base <;> simp [walkFrom, walkBase, walkList, row, children?, list?]
  | _ => simp [walkFrom, walkList, row, children?, list?]

/-! ## The visits of a walk -/

variable {visit : Visit}

/-- The visits of the children of a slot are those of the single children. -/
theorem mem_walkList {path : Path} {slot : Slot} {siblings index : Nat} {items : List Node} :
    visit ∈ walkList path slot siblings index items ↔
      ∃ (k : Nat) (child : Node), items[k]? = some child ∧
        visit ∈ child.walkFrom (path.child slot (index + k)) siblings := by
  induction items generalizing index with
  | nil => simp [walkList]
  | cons node rest ih =>
    rw [walkList, List.mem_append, ih]
    constructor
    · intro h
      rcases h with hnode | ⟨k, child, hchild, hvisit⟩
      · exact ⟨0, node, rfl, hnode⟩
      · exact ⟨k + 1, child, hchild, by rwa [Nat.add_assoc, Nat.add_comm 1 k] at hvisit⟩
    · intro h
      obtain ⟨k, child, hchild, hvisit⟩ := h
      cases k with
      | zero =>
        cases hchild
        exact .inl hvisit
      | succ k =>
        exact .inr ⟨k, child, hchild, by rwa [Nat.add_assoc, Nat.add_comm 1 k]⟩

/-- The number of children in the list that the node at a path lies in; for the
root, the number given. -/
def rowLength (node : Node) (siblings : Nat) : Path → Nat
  | [] => siblings
  | step :: rest =>
    match node.child? step with
    | some child => child.rowLength (node.row step.slot).length rest
    | none => 0

/-- The visit is of a node that can be read from the given one, which itself has
the path and the number of siblings. -/
def Below (node : Node) (path : Path) (siblings : Nat) (visit : Visit) : Prop :=
  ∃ below, visit.path = path ++ below ∧ node.get? below = some visit.node ∧
    visit.siblings = node.rowLength siblings below

/-- What a walk visits in a slot, given what it visits from each child there. -/
theorem mem_walkList_row {node : Node} {slot : Slot} (path : Path) (siblings : Nat)
    (h : ∀ child ∈ node.row slot, ∀ path siblings,
      visit ∈ child.walkFrom path siblings ↔ child.Below path siblings visit) :
    visit ∈ walkList path slot (node.row slot).length 0 (node.row slot) ↔
      ∃ index rest, visit.path = path ++ ⟨slot, index⟩ :: rest ∧
        node.get? (⟨slot, index⟩ :: rest) = some visit.node ∧
        visit.siblings = node.rowLength siblings (⟨slot, index⟩ :: rest) := by
  rw [mem_walkList]
  constructor
  · intro hvisit
    obtain ⟨k, child, hchild, hvisit⟩ := hvisit
    obtain ⟨below, hpath, hget, hsib⟩ := (h child (List.mem_of_getElem? hchild) _ _).1 hvisit
    have hstep : node.child? ⟨slot, k⟩ = some child := by rw [child?_eq_row, hchild]
    refine ⟨k, below, ?_, ?_, ?_⟩
    · simpa [Path.child] using hpath
    · rw [get?, hstep, Option.bind_some, hget]
    · rw [hsib, rowLength, hstep]
  · intro hbelow
    obtain ⟨k, rest, hpath, hget, hsib⟩ := hbelow
    obtain ⟨child, hstep, hrest⟩ := Option.bind_eq_some_iff.1 hget
    have hchild : (node.row slot)[k]? = some child := by rw [← hstep, child?_eq_row]
    refine ⟨k, child, hchild, (h child (List.mem_of_getElem? hchild) _ _).2 ⟨rest, ?_, hrest, ?_⟩⟩
    · simpa [Path.child] using hpath
    · rw [hsib, rowLength, hstep]

/-- A walk visits what can be read from where it starts. -/
theorem mem_walkFrom {node : Node} {path : Path} {siblings : Nat} :
    visit ∈ node.walkFrom path siblings ↔ node.Below path siblings visit := by
  induction node using induction_on_rows generalizing path siblings with
  | step node ih =>
  rw [walkFrom_eq, List.mem_cons, List.mem_append,
    mem_walkList_row path siblings fun child hchild _ _ => ih .args child hchild,
    mem_walkList_row path siblings fun child hchild _ _ => ih .content child hchild]
  constructor
  · intro hvisit
    rcases hvisit with rfl | ⟨index, rest, h⟩ | ⟨index, rest, h⟩
    · exact ⟨[], (List.append_nil path).symm, rfl, rfl⟩
    · exact ⟨_, h⟩
    · exact ⟨_, h⟩
  · intro hbelow
    obtain ⟨below, hpath, hget, hsib⟩ := hbelow
    cases below with
    | nil =>
      obtain ⟨vpath, vsiblings, vnode⟩ := visit
      cases hget
      cases hsib
      cases (List.append_nil path ▸ hpath : vpath = path)
      exact .inl rfl
    | cons step rest =>
      obtain ⟨slot, index⟩ := step
      cases slot with
      | args => exact .inr (.inl ⟨index, rest, hpath, hget, hsib⟩)
      | content => exact .inr (.inr ⟨index, rest, hpath, hget, hsib⟩)

/-- The visits of a walk are the occupied paths. -/
theorem mem_walk {root : Node} :
    visit ∈ root.walk ↔
      root.get? visit.path = some visit.node ∧ visit.siblings = root.rowLength 1 visit.path := by
  rw [walk, mem_walkFrom]
  constructor
  · intro hbelow
    obtain ⟨below, hpath, h⟩ := hbelow
    rw [List.nil_append] at hpath
    rwa [hpath]
  · intro h
    exact ⟨visit.path, rfl, h⟩

/-! ## The order of the visits -/

/-- What a walk visits in a slot lies below one of its steps. -/
theorem path_of_mem_walkList {path : Path} {slot : Slot} {siblings index : Nat}
    {items : List Node} (h : visit ∈ walkList path slot siblings index items) :
    ∃ k rest, index ≤ k ∧ visit.path = path ++ ⟨slot, k⟩ :: rest := by
  obtain ⟨k, child, -, hchild⟩ := mem_walkList.1 h
  obtain ⟨rest, hpath, -⟩ := mem_walkFrom.1 hchild
  exact ⟨index + k, rest, Nat.le_add_right .., by simpa [Path.child] using hpath⟩

theorem pairwise_walkList {path : Path} {slot : Slot} {siblings : Nat} {items : List Node}
    (h : ∀ child ∈ items, ∀ path siblings, (child.walkFrom path siblings).Pairwise Visit.Before)
    (index : Nat) : (walkList path slot siblings index items).Pairwise Visit.Before := by
  induction items generalizing index with
  | nil => exact .nil
  | cons child rest ih =>
    obtain ⟨hchild, hrest⟩ := List.forall_mem_cons.1 h
    rw [walkList, List.pairwise_append]
    refine ⟨hchild _ _, ih hrest _, ?_⟩
    intro visit hvisit later hlater
    obtain ⟨below, hpath, -⟩ := mem_walkFrom.1 hvisit
    obtain ⟨k, below', hk, hpath'⟩ := path_of_mem_walkList hlater
    have hstep : Step.Before ⟨slot, index⟩ ⟨slot, k⟩ := .inr ⟨rfl, hk⟩
    rw [Visit.Before, hpath, hpath', Path.child, List.append_assoc]
    exact hstep.append path below below'

theorem pairwise_walkFrom (node : Node) (path : Path) (siblings : Nat) :
    (node.walkFrom path siblings).Pairwise Visit.Before := by
  induction node using induction_on_rows generalizing path siblings with
  | step node ih =>
  rw [walkFrom_eq, List.pairwise_cons, List.pairwise_append]
  refine ⟨?_, pairwise_walkList (ih .args) 0, pairwise_walkList (ih .content) 0, ?_⟩
  · intro visit hvisit
    -- what is below the node, in either slot, comes after it
    obtain ⟨step, rest, hpath⟩ : ∃ step rest, visit.path = path ++ step :: rest := by
      rcases List.mem_append.1 hvisit with hvisit | hvisit
      all_goals
        obtain ⟨k, rest, -, hpath⟩ := path_of_mem_walkList hvisit
        exact ⟨_, rest, hpath⟩
    rw [Visit.Before, hpath]
    exact Path.before_append_cons ..
  · intro visit hvisit later hlater
    obtain ⟨k, rest, -, hpath⟩ := path_of_mem_walkList hvisit
    obtain ⟨k', rest', -, hpath'⟩ := path_of_mem_walkList hlater
    have hstep : Step.Before ⟨.args, k⟩ ⟨.content, k'⟩ := .inl ⟨rfl, rfl⟩
    rw [Visit.Before, hpath, hpath']
    exact hstep.append path rest rest'

/-- The visits come in document order. -/
theorem pairwise_walk (root : Node) :
    root.walk.Pairwise Visit.Before :=
  pairwise_walkFrom root [] 1

/-- The visits at a path: the node there, once, or none. -/
theorem filter_walk (root : Node) (path : Path) :
    (root.walk.filter fun visit => visit.path == path).map Visit.node =
      (root.get? path).toList := by
  cases hget : root.get? path with
  | none =>
    have hnone : ∀ visit ∈ root.walk, ¬ (visit.path == path) = true := by
      intro visit hvisit hpath
      rw [← eq_of_beq hpath, (mem_walk.1 hvisit).1] at hget
      cases hget
    rw [List.filter_eq_nil_iff.2 hnone]
    rfl
  | some node =>
    have hmem : ⟨path, root.rowLength 1 path, node⟩ ∈ root.walk := mem_walk.2 ⟨hget, rfl⟩
    obtain ⟨before, after, heq⟩ := List.append_of_mem hmem
    -- no other visit has this path: those before and after it differ in the order
    have hpairs := root.pairwise_walk
    rw [heq, List.pairwise_append, List.pairwise_cons] at hpairs
    obtain ⟨-, ⟨hafter, -⟩, hbefore⟩ := hpairs
    have hnone : before.filter (fun visit => visit.path == path) = [] := by
      refine List.filter_eq_nil_iff.2 fun visit hvisit hpath => ?_
      exact (hbefore visit hvisit _ List.mem_cons_self).ne (eq_of_beq hpath)
    have hnone' : after.filter (fun visit => visit.path == path) = [] := by
      refine List.filter_eq_nil_iff.2 fun visit hvisit hpath => ?_
      exact (hafter visit hvisit).ne (eq_of_beq hpath).symm
    rw [heq, List.filter_append, hnone, List.nil_append, List.filter_cons, hnone']
    simp

/-! ## Places in a row -/

/-- The places of a row that are occupied are those before its end. -/
theorem isSome_get?_append {root owner : Node} {front : Path} (h : root.get? front = some owner)
    (slot : Slot) (index : Nat) :
    (root.get? (front ++ [⟨slot, index⟩])).isSome = true ↔ index < (owner.row slot).length := by
  rw [get?_append, h, Option.bind_some, get?, child?_eq_row]
  by_cases hlt : index < (owner.row slot).length
  · simp [hlt, get?]
  · simp [hlt]

/-- An occupied place lies in a row, of which the walk knows the length. -/
theorem exists_row {root : Node} {front : Path} {slot : Slot} {index : Nat} (siblings : Nat)
    (h : (root.get? (front ++ [⟨slot, index⟩])).isSome = true) :
    ∃ owner, root.get? front = some owner ∧
      root.rowLength siblings (front ++ [⟨slot, index⟩]) = (owner.row slot).length := by
  induction front generalizing root siblings with
  | nil =>
    obtain ⟨node, hget⟩ := Option.isSome_iff_exists.1 h
    obtain ⟨child, hchild, -⟩ := Option.bind_eq_some_iff.1 hget
    refine ⟨root, rfl, ?_⟩
    rw [List.nil_append, rowLength, hchild]
    rfl
  | cons first rest ih =>
    obtain ⟨node, hget⟩ := Option.isSome_iff_exists.1 h
    obtain ⟨next, hnext, hrest⟩ := Option.bind_eq_some_iff.1 hget
    obtain ⟨owner, howner, hlength⟩ :=
      ih (root.row first.slot).length (Option.isSome_iff_exists.2 ⟨node, hrest⟩)
    refine ⟨owner, ?_, ?_⟩
    · rw [get?, hnext, Option.bind_some, howner]
    · rw [List.cons_append, rowLength, hnext]
      exact hlength

end Node

/-! ## The relations of a tree -/

/-- In a map made of entries with different keys, what is found at a key is its
entry. -/
theorem getElem?_ofList_iff {entries : List (Path × Neighbours)}
    (distinct : entries.Pairwise fun entry later => (entry.1 == later.1) = false)
    {path : Path} {around : Neighbours} :
    (Std.HashMap.ofList entries)[path]? = some around ↔ (path, around) ∈ entries := by
  constructor
  · intro h
    by_cases hkey : ∃ around', (path, around') ∈ entries
    · obtain ⟨around', hmem⟩ := hkey
      rw [Std.HashMap.getElem?_ofList_of_mem (beq_self_eq_true path) distinct hmem] at h
      cases h
      exact hmem
    · rw [Std.HashMap.getElem?_ofList_of_contains_eq_false] at h
      · cases h
      · simpa using hkey
  · intro h
    exact Std.HashMap.getElem?_ofList_of_mem (beq_self_eq_true path) distinct h

/-- What a visit tells depends on its last step and the length of its row. -/
theorem Visit.neighbours?_append (front : Path) (slot : Slot) (index siblings : Nat) (node : Node) :
    Visit.neighbours? ⟨front ++ [⟨slot, index⟩], siblings, node⟩ = some {
      parent := front
      previous := if index == 0 then none else some (front ++ [⟨slot, index - 1⟩])
      next := if index + 1 < siblings then some (front ++ [⟨slot, index + 1⟩]) else none } := by
  simp [Visit.neighbours?]

namespace Relations

variable {root : Node} {path other : Path}

theorem neighbours_iff {around : Neighbours} :
    (ofNode root).neighbours[path]? = some around ↔
      ∃ node, root.get? path = some node ∧
        Visit.neighbours? ⟨path, root.rowLength 1 path, node⟩ = some around := by
  rw [ofNode, getElem?_ofList_iff]
  · rw [List.mem_filterMap]
    constructor
    · intro h
      obtain ⟨visit, hvisit, hentry⟩ := h
      obtain ⟨around', haround, heq⟩ := Option.map_eq_some_iff.1 hentry
      cases heq
      obtain ⟨hget, hsib⟩ := Node.mem_walk.1 hvisit
      exact ⟨visit.node, hget, by rw [← hsib]; exact haround⟩
    · intro h
      obtain ⟨node, hget, haround⟩ := h
      exact ⟨_, Node.mem_walk.2 ⟨hget, rfl⟩, by rw [haround]; rfl⟩
  · rw [List.pairwise_filterMap]
    refine root.pairwise_walk.imp ?_
    intro visit later hbefore entry hentry entry' hentry'
    obtain ⟨_, -, rfl⟩ := Option.map_eq_some_iff.1 hentry
    obtain ⟨_, -, rfl⟩ := Option.map_eq_some_iff.1 hentry'
    exact beq_eq_false_iff_ne.2 hbefore.ne

/-- A path has neighbours if it is occupied and not the root. -/
theorem neighbours_of_isSome {front : Path} {slot : Slot} {index : Nat}
    (h : (root.get? (front ++ [⟨slot, index⟩])).isSome = true) :
    ∃ owner, root.get? front = some owner ∧
      (ofNode root).neighbours[front ++ [⟨slot, index⟩]]? = some {
        parent := front
        previous := if index == 0 then none else some (front ++ [⟨slot, index - 1⟩])
        next := if index + 1 < (owner.row slot).length then some (front ++ [⟨slot, index + 1⟩])
          else none } := by
  obtain ⟨node, hget⟩ := Option.isSome_iff_exists.1 h
  obtain ⟨owner, howner, hlength⟩ := Node.exists_row 1 h
  refine ⟨owner, howner, neighbours_iff.2 ⟨node, hget, ?_⟩⟩
  rw [hlength, Visit.neighbours?_append]

theorem neighbours_eq_none (h : path = [] ∨ root.get? path = none) :
    (ofNode root).neighbours[path]? = none := by
  refine Option.eq_none_iff_forall_ne_some.2 fun around haround => ?_
  obtain ⟨node, hget, hvisit⟩ := neighbours_iff.1 haround
  rcases h with rfl | hnone
  · cases hvisit
  · cases hget.symm.trans hnone

/-- The parent of an occupied path is one step up. -/
theorem parent?_eq {front : Path} {step : Step}
    (h : (root.get? (front ++ [step])).isSome = true) :
    (ofNode root).parent? (front ++ [step]) = some front := by
  obtain ⟨owner, -, haround⟩ := neighbours_of_isSome h
  rw [parent?, haround]
  rfl

/-- The next path is the one with the next index, where that is occupied. -/
theorem next?_iff {front : Path} {step : Step}
    (h : (root.get? (front ++ [step])).isSome = true) :
    (ofNode root).next? (front ++ [step]) = some other ↔
      other = front ++ [⟨step.slot, step.index + 1⟩] ∧ (root.get? other).isSome = true := by
  obtain ⟨slot, index⟩ := step
  obtain ⟨owner, howner, haround⟩ := neighbours_of_isSome h
  have hnext := Node.isSome_get?_append howner slot (index + 1)
  rw [next?, haround, Option.bind_some]
  show (if index + 1 < (owner.row slot).length then some (front ++ [⟨slot, index + 1⟩])
    else none) = some other ↔ _
  by_cases hlt : index + 1 < (owner.row slot).length
  · rw [if_pos hlt, Option.some.injEq]
    constructor
    · intro heq
      exact ⟨heq.symm, heq ▸ hnext.2 hlt⟩
    · exact fun heq => heq.1.symm
  · rw [if_neg hlt]
    constructor
    · intro hsome
      cases hsome
    · intro hother
      obtain ⟨heq, hsome⟩ := hother
      exact absurd (hnext.1 (heq ▸ hsome)) hlt

/-- The previous path is the one with the previous index. -/
theorem previous?_iff {front : Path} {step : Step}
    (h : (root.get? (front ++ [step])).isSome = true) :
    (ofNode root).previous? (front ++ [step]) = some other ↔
      ∃ index, step.index = index + 1 ∧ other = front ++ [⟨step.slot, index⟩] ∧
        (root.get? other).isSome = true := by
  obtain ⟨slot, index⟩ := step
  obtain ⟨owner, howner, haround⟩ := neighbours_of_isSome h
  have hlt : index < (owner.row slot).length := (Node.isSome_get?_append howner slot index).1 h
  rw [previous?, haround, Option.bind_some]
  show (if index == 0 then none else some (front ++ [⟨slot, index - 1⟩])) = some other ↔ _
  cases index with
  | zero => simp
  | succ index =>
    have hsome := (Node.isSome_get?_append howner slot index).2 (by omega)
    constructor
    · intro heq
      cases heq
      exact ⟨index, rfl, rfl, hsome⟩
    · intro hindex
      obtain ⟨index', heq, hother, -⟩ := hindex
      cases heq
      rw [hother]
      rfl

/-- Only an occupied path with a last step has neighbours. -/
theorem exists_step (h : (ofNode root).neighbours[path]? ≠ none) :
    ∃ front step, path = front ++ [step] ∧ (root.get? (front ++ [step])).isSome = true := by
  have hplace : ¬ (path = [] ∨ root.get? path = none) := fun hempty => h (neighbours_eq_none hempty)
  obtain ⟨hpath, hget⟩ := not_or.1 hplace
  rcases List.eq_nil_or_concat' path with hnil | ⟨front, step, rfl⟩
  · exact absurd hnil hpath
  · exact ⟨front, step, rfl, Option.isSome_iff_ne_none.2 hget⟩

theorem next?_iff_previous? :
    (ofNode root).next? path = some other ↔ (ofNode root).previous? other = some path := by
  constructor
  · intro hnext
    obtain ⟨front, step, rfl, hsome⟩ : ∃ front step, path = front ++ [step] ∧
        (root.get? (front ++ [step])).isSome = true := by
      refine exists_step fun hnone => ?_
      rw [next?, hnone] at hnext
      cases hnext
    obtain ⟨rfl, hother⟩ := (next?_iff hsome).1 hnext
    exact (previous?_iff hother).2 ⟨step.index, rfl, rfl, hsome⟩
  · intro hprevious
    obtain ⟨front, ⟨slot, _⟩, rfl, hsome⟩ : ∃ front step, other = front ++ [step] ∧
        (root.get? (front ++ [step])).isSome = true := by
      refine exists_step fun hnone => ?_
      rw [previous?, hnone] at hprevious
      cases hprevious
    obtain ⟨index, rfl, rfl, hpath⟩ := (previous?_iff hsome).1 hprevious
    exact (next?_iff hpath).2 ⟨rfl, hsome⟩

end Relations

/-- **Paths, walks and relations describe one tree.** A walk visits each occupied
path once and hands over the node there, in document order, and the relations
count the visits. The parent of an occupied path is one step up, its neighbours
are the occupied paths with the next and the previous index, so next and previous
are inverse to each other; the root and what is not occupied have none. -/
theorem walk_and_relations (root : Node) :
    (∀ path, (root.walk.filter fun visit => visit.path == path).map Visit.node =
      (root.get? path).toList) ∧
    root.walk.Pairwise Visit.Before ∧
    (Relations.ofNode root).size = root.walk.length ∧
    (∀ front step, (root.get? (front ++ [step])).isSome = true →
      (Relations.ofNode root).parent? (front ++ [step]) = some front ∧
      (∀ other, (Relations.ofNode root).next? (front ++ [step]) = some other ↔
        other = front ++ [⟨step.slot, step.index + 1⟩] ∧ (root.get? other).isSome = true) ∧
      (∀ other, (Relations.ofNode root).previous? (front ++ [step]) = some other ↔
        ∃ index, step.index = index + 1 ∧ other = front ++ [⟨step.slot, index⟩] ∧
          (root.get? other).isSome = true)) ∧
    (∀ path other, (Relations.ofNode root).next? path = some other ↔
      (Relations.ofNode root).previous? other = some path) ∧
    (∀ path, path = [] ∨ root.get? path = none →
      (Relations.ofNode root).parent? path = none ∧
      (Relations.ofNode root).previous? path = none ∧
      (Relations.ofNode root).next? path = none) := by
  refine ⟨root.filter_walk, root.pairwise_walk, rfl, ?_, ?_, ?_⟩
  · intro front step hsome
    exact ⟨Relations.parent?_eq hsome, fun _ => Relations.next?_iff hsome,
      fun _ => Relations.previous?_iff hsome⟩
  · exact fun path other => Relations.next?_iff_previous?
  · intro path hplace
    have hnone := Relations.neighbours_eq_none hplace
    refine ⟨?_, ?_, ?_⟩
    · rw [Relations.parent?, hnone]; rfl
    · rw [Relations.previous?, hnone]; rfl
    · rw [Relations.next?, hnone]; rfl

end LatexFormatter
