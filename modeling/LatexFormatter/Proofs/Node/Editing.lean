import Mathlib.Data.List.Basic
import LatexFormatter.Node.Path

/-
  Edits by path. Nodes are read through the children of a slot and written
  through its list or the base of a script; the two agree, so an edit finds what
  reading finds, and what it leaves alone reads as before. `hollow` is a node
  without its children: above an edited place, everything but the way down to it
  stays, and the hollow of every node stays.

  Edits can be taken back. A replacement hands over the node that was there and a
  splice the children that were there, and putting these back restores the tree
  (`edits_by_path`); a session of edits is undone from its last edit to its first
  (`undo_session`).
-/

namespace LatexFormatter

namespace Node

/-- The node without its children: its kind, its name and its text, and which
slots it has. -/
def hollow : Node → Node
  | list _ => list []
  | command name args => command name (args.map fun _ => [])
  | environment name args _ => environment name (args.map fun _ => []) []
  | mathEnvironment name _ => mathEnvironment name []
  | inlineMath _ => inlineMath []
  | displayMath _ => displayMath []
  | group _ => group []
  | script mark base => script mark (base.map fun _ => whitespace)
  | arguments _ => arguments []
  | node => node

/-! ## The list of a slot -/

variable {node old new child : Node} {slot other : Slot} {items items' : List Node}

theorem children?_of_list? (h : node.list? slot = some items) :
    node.children? slot = some items := by
  cases node with
  | script mark base => cases slot <;> cases h
  | _ => cases slot <;> exact h

theorem list?_withList (h : node.list? slot = some items) :
    (node.withList slot items').list? slot = some items' := by
  cases node <;> cases slot <;> simp_all [list?, withList]

theorem children?_withList_of_ne (h : other ≠ slot) :
    (node.withList slot items').children? other = node.children? other := by
  cases slot with
  | content =>
    cases other with
    | content => exact absurd rfl h
    | args => cases node <;> rfl
  | args =>
    cases other with
    | args => exact absurd rfl h
    | content =>
      cases node with
      | command name args | environment name args body => cases args <;> rfl
      | _ => rfl

theorem withList_list? (h : node.list? slot = some items) : node.withList slot items = node := by
  cases node <;> cases slot <;> simp_all [list?, withList]

theorem withList_withList (h : node.list? slot = some items) (items'' : List Node) :
    (node.withList slot items').withList slot items'' = node.withList slot items'' := by
  cases node <;> cases slot <;> simp_all [list?, withList]

theorem hollow_withList (h : node.list? slot = some items) :
    (node.withList slot items').hollow = node.hollow := by
  cases node <;> cases slot <;> simp_all [list?, withList, hollow]

/-! ## The child of a step -/

variable {step step' : Step}

/-- A child lies in the list of its slot or is the base of a script. -/
theorem child_cases (h : node.child? step = some child) :
    (∃ mark, node = script mark (some child) ∧ step = ⟨.content, 0⟩) ∨
    ∃ items, node.list? step.slot = some items ∧ items[step.index]? = some child := by
  obtain ⟨slot, index⟩ := step
  obtain ⟨items, hitems, hchild⟩ := Option.bind_eq_some_iff.1 h
  cases node with
  | script mark base =>
    cases slot with
    | args => cases hitems
    | content =>
      -- the base is read as a list of one child, so the index can only be zero
      obtain ⟨only, rfl, rfl⟩ := Option.map_eq_some_iff.1 hitems
      cases index with
      | zero =>
        cases hchild
        exact .inl ⟨mark, rfl, rfl⟩
      | succ index => cases hchild
  | _ => cases slot <;> exact .inr ⟨items, hitems, hchild⟩

/-- An edit reaches the child that reading finds. -/
theorem editable?_eq_child? (node : Node) (step : Step) :
    node.editable? step = node.child? step := by
  obtain ⟨slot, index⟩ := step
  cases node with
  | script mark base =>
    cases slot with
    | args => rfl
    | content => cases base <;> cases index <;> rfl
  | _ => cases slot <;> rfl

/-- Another child is put where reading finds the old one. -/
theorem withChild_of_list? (h : node.list? step.slot = some items) (new : Node) :
    node.withChild step new = node.withList step.slot (items.set step.index new) := by
  obtain ⟨slot, index⟩ := step
  cases node <;> cases slot <;> simp_all [list?, withChild, withList]

theorem child?_withChild (h : node.child? step = some child) :
    (node.withChild step new).child? step = some new := by
  obtain ⟨mark, rfl, rfl⟩ | ⟨items, hlist, hchild⟩ := child_cases h
  · rfl
  · have hlt : step.index < items.length := (List.getElem?_eq_some_iff.1 hchild).1
    rw [withChild_of_list? hlist, child?, children?_of_list? (list?_withList hlist)]
    simp [hlt]

theorem child?_withChild_of_ne (h : node.child? step = some child) (hne : step' ≠ step) :
    (node.withChild step new).child? step' = node.child? step' := by
  obtain ⟨slot', index'⟩ := step'
  obtain ⟨mark, rfl, rfl⟩ | ⟨items, hlist, hchild⟩ := child_cases h
  · cases slot' with
    | args => rfl
    | content =>
      cases index' with
      | zero => exact absurd rfl hne
      | succ index' => rfl
  · rw [withChild_of_list? hlist]
    by_cases hslot : slot' = step.slot
    · subst hslot
      have hindex : step.index ≠ index' := fun heq => hne (by rw [← heq])
      rw [child?, child?, children?_of_list? (list?_withList hlist), children?_of_list? hlist]
      simp [List.getElem?_set_ne hindex]
    · rw [child?, child?, children?_withList_of_ne hslot]

theorem withChild_self (h : node.child? step = some child) : node.withChild step child = node := by
  obtain ⟨mark, rfl, rfl⟩ | ⟨items, hlist, hchild⟩ := child_cases h
  · rfl
  · obtain ⟨hlt, rfl⟩ := List.getElem?_eq_some_iff.1 hchild
    rw [withChild_of_list? hlist, List.set_getElem_self, withList_list? hlist]

/-- Of two children put in one place, the second stays. -/
theorem withChild_withChild (h : node.child? step = some child) (new' : Node) :
    (node.withChild step new).withChild step new' = node.withChild step new' := by
  obtain ⟨mark, rfl, rfl⟩ | ⟨items, hlist, -⟩ := child_cases h
  · rfl
  · rw [withChild_of_list? hlist, withChild_of_list? hlist,
      withChild_of_list? (list?_withList hlist), List.set_set, withList_withList hlist]

theorem hollow_withChild (h : node.child? step = some child) :
    (node.withChild step new).hollow = node.hollow := by
  obtain ⟨mark, rfl, rfl⟩ | ⟨items, hlist, -⟩ := child_cases h
  · rfl
  · rw [withChild_of_list? hlist, hollow_withList hlist]

/-! ## Reading along a path -/

/-- Reading along a path in two parts. -/
theorem get?_append (node : Node) (path below : Path) :
    node.get? (path ++ below) = (node.get? path).bind fun target => target.get? below := by
  induction path generalizing node with
  | nil => rfl
  | cons step rest ih =>
    rw [List.cons_append, get?, get?, Option.bind_assoc]
    congr
    funext child
    exact ih child

/-! ## One node in the place of another -/

/-- The second tree is the first one with `new` in the place of `old`, which lies
at the path. -/
inductive Swapped (old new : Node) : Path → Node → Node → Prop where
  | here : Swapped old new [] old new
  | under {step : Step} {rest : Path} {node child child' : Node}
      (found : node.child? step = some child) (swapped : Swapped old new rest child child') :
      Swapped old new (step :: rest) node (node.withChild step child')

variable {tree edited : Node} {path : Path}

namespace Swapped

theorem get? (h : Swapped old new path tree edited) : tree.get? path = some old := by
  induction h with
  | here => rfl
  | under found _ ih => rw [Node.get?, found, Option.bind_some, ih]

/-- What was swapped can be swapped back. -/
theorem symm (h : Swapped old new path tree edited) : Swapped new old path edited tree := by
  induction h with
  | here => exact .here
  | under found _ ih =>
    -- the old child goes where the new one has been put, and that is the node as it was
    have hback := under (child?_withChild found) ih
    rwa [withChild_withChild found, withChild_self found] at hback

/-- The node at a path can be put in its own place. -/
theorem refl (h : tree.get? path = some old) : Swapped old old path tree tree := by
  induction path generalizing tree with
  | nil =>
    cases h
    exact .here
  | cons step rest ih =>
    obtain ⟨child, hchild, hrest⟩ := Option.bind_eq_some_iff.1 h
    have hsame := under hchild (ih hrest)
    rwa [withChild_self hchild] at hsame

/-- The place and the node to put there leave no choice. -/
theorem eq {old' edited' : Node} (h : Swapped old new path tree edited)
    (h' : Swapped old' new path tree edited') : edited = edited' := by
  induction h generalizing edited' with
  | here => cases h'; rfl
  | under found _ ih =>
    cases h' with
    | under found' swapped' =>
      cases found.symm.trans found'
      rw [ih swapped']

/-- At the path and below it stands the new node. -/
theorem get?_append (h : Swapped old new path tree edited) (below : Path) :
    edited.get? (path ++ below) = new.get? below := by
  rw [Node.get?_append, h.symm.get?, Option.bind_some]

/-- Beside the path nothing changes. -/
theorem get?_beside (h : Swapped old new path tree edited) {other : Path}
    (hup : ¬ other <+: path) (hdown : ¬ path <+: other) : edited.get? other = tree.get? other := by
  induction h generalizing other with
  | here => exact absurd List.nil_prefix hdown
  | @under step rest node child child' found _ ih =>
    cases other with
    | nil => exact absurd List.nil_prefix hup
    | cons step' rest' =>
      rw [Node.get?, Node.get?]
      by_cases hstep : step' = step
      · subst hstep
        rw [child?_withChild found, found]
        exact ih (fun hpre => hup (List.cons_prefix_cons.2 ⟨rfl, hpre⟩))
          (fun hpre => hdown (List.cons_prefix_cons.2 ⟨rfl, hpre⟩))
      · rw [child?_withChild_of_ne found hstep]

/-- Away from the path and above it nothing changes but the way down. -/
theorem hollow_get? (h : Swapped old new path tree edited) {other : Path}
    (hdown : ¬ path <+: other) :
    (edited.get? other).map hollow = (tree.get? other).map hollow := by
  induction h generalizing other with
  | here => exact absurd List.nil_prefix hdown
  | @under step rest node child child' found _ ih =>
    cases other with
    | nil => exact congrArg some (hollow_withChild found)
    | cons step' rest' =>
      rw [Node.get?, Node.get?]
      by_cases hstep : step' = step
      · subst hstep
        rw [child?_withChild found, found]
        exact ih fun hpre => hdown (List.cons_prefix_cons.2 ⟨rfl, hpre⟩)
      · rw [child?_withChild_of_ne found hstep]

end Swapped

/-! ## Edits swap one node -/

/-- An edit is handed the node at the path and puts what it makes of it there. -/
theorem editAt_of_get? {α : Type} (edit : Node → α × Node) (h : tree.get? path = some old) :
    ∃ edited, tree.editAt edit path = some ((edit old).1, edited) ∧
      Swapped old (edit old).2 path tree edited := by
  induction path generalizing tree with
  | nil =>
    cases h
    exact ⟨_, rfl, .here⟩
  | cons step rest ih =>
    obtain ⟨child, hchild, hrest⟩ := Option.bind_eq_some_iff.1 h
    obtain ⟨child', hedit, hswap⟩ := ih hrest
    refine ⟨tree.withChild step child', ?_, .under hchild hswap⟩
    rw [editAt, editable?_eq_child?, hchild, Option.bind_some, hedit]
    rfl

theorem editAt_of_get?_eq_none {α : Type} (edit : Node → α × Node) (h : tree.get? path = none) :
    tree.editAt edit path = none := by
  induction path generalizing tree with
  | nil => cases h
  | cons step rest ih =>
    rw [editAt, editable?_eq_child?]
    rw [get?] at h
    cases hchild : tree.child? step with
    | none => rfl
    | some child =>
      rw [hchild, Option.bind_some] at h
      rw [Option.bind_some, ih h]
      rfl

/-- What an edit has to tell, it tells of the node that reading finds. -/
theorem map_fst_editAt {α : Type} (edit : Node → α × Node) (tree : Node) (path : Path) :
    (tree.editAt edit path).map Prod.fst = (tree.get? path).map fun target => (edit target).1 := by
  cases hget : tree.get? path with
  | none => rw [editAt_of_get?_eq_none edit hget]; rfl
  | some target =>
    obtain ⟨edited, heq, -⟩ := editAt_of_get? edit hget
    rw [heq]
    rfl

/-- A swap is what an edit does that puts the new node there. -/
theorem Swapped.editAt {α : Type} {edit : Node → α × Node} {told : α}
    (h : Swapped old new path tree edited) (hedit : edit old = (told, new)) :
    tree.editAt edit path = some (told, edited) := by
  obtain ⟨edited', heq, hswap⟩ := editAt_of_get? edit h.get?
  rw [hedit] at heq hswap
  rw [heq, hswap.eq h]

theorem replaceAt_of_get? (h : tree.get? path = some old) (new : Node) :
    ∃ edited, tree.replaceAt path new = some (old, edited) ∧ Swapped old new path tree edited :=
  editAt_of_get? (fun old => (old, new)) h

/-! ## Splicing a list -/

variable {start stop : Nat} {replacement : List Node}

/-- The range lies within the list that a node keeps in a slot. -/
def Splices (slot : Slot) (start stop : Nat) (items : List Node) (node : Node) : Prop :=
  node.list? slot = some items ∧ start ≤ stop ∧ stop ≤ items.length

theorem Splices.splice (h : Splices slot start stop items node) (replacement : List Node) :
    node.splice slot start stop replacement = .ok ((items.take stop).drop start,
      node.withList slot (items.take start ++ replacement ++ items.drop stop)) := by
  obtain ⟨hlist, hstart, hstop⟩ := h
  have hrange : (decide (stop < start) || decide (items.length < stop)) = false := by
    simp only [Bool.or_eq_false_iff, decide_eq_false_iff_not]
    omega
  rw [Node.splice, hlist]
  simp only [hrange, Bool.false_eq_true, if_false]

theorem splice_of_not_splices (h : ∀ items, ¬ Splices slot start stop items node)
    (replacement : List Node) :
    ∃ fault, node.splice slot start stop replacement = .error fault := by
  rw [splice]
  cases hlist : node.list? slot with
  | none => exact ⟨_, rfl⟩
  | some items =>
    have hrange : (decide (stop < start) || decide (items.length < stop)) = true := by
      simp only [Bool.or_eq_true, decide_eq_true_eq]
      by_contra hin
      exact h items ⟨hlist, by omega, by omega⟩
    simp only [hrange, if_true]
    exact ⟨_, rfl⟩

/-- A splice can be made unless there is no list or the range is no range of
it. -/
theorem forall_not_splices :
    (∀ items, ¬ Splices slot start stop items node) ↔
      node.list? slot = none ∨ stop < start ∨
        ∃ items, node.list? slot = some items ∧ items.length < stop := by
  constructor
  · intro h
    cases hlist : node.list? slot with
    | none => exact .inl rfl
    | some items =>
      by_cases hstart : stop < start
      · exact .inr (.inl hstart)
      · refine .inr (.inr ⟨items, rfl, ?_⟩)
        by_contra hstop
        exact h items ⟨hlist, by omega, by omega⟩
  · intro h items hin
    obtain ⟨hlist, hstart, hstop⟩ := hin
    rcases h with hnone | hlt | ⟨items', hlist', hlt⟩
    · cases hlist.symm.trans hnone
    · omega
    · cases hlist.symm.trans hlist'
      omega

/-- The range of what was put in lies within the new list. -/
theorem Splices.back (h : Splices slot start stop items node) :
    Splices slot start (start + replacement.length)
      (items.take start ++ replacement ++ items.drop stop)
      (node.withList slot (items.take start ++ replacement ++ items.drop stop)) := by
  refine ⟨list?_withList h.1, Nat.le_add_right .., ?_⟩
  have hstart : start ≤ items.length := Nat.le_trans h.2.1 h.2.2
  simp only [List.length_append, List.length_take, Nat.min_eq_left hstart]
  omega

/-- Splicing back what was taken out takes out what was put in and restores the
node. -/
theorem Splices.splice_back (h : Splices slot start stop items node) :
    (node.withList slot (items.take start ++ replacement ++ items.drop stop)).splice slot start
      (start + replacement.length) ((items.take stop).drop start) = .ok (replacement, node) := by
  obtain ⟨hlist, hstart, hstop⟩ := h
  have hlen : (items.take start).length = start := by
    rw [List.length_take]
    omega
  have hout : ((items.take start ++ replacement ++ items.drop stop).take
      (start + replacement.length)).drop start = replacement := by
    rw [List.take_left' (by rw [List.length_append, hlen]), List.drop_left' hlen]
  -- the part before the range and the part after it were not touched
  have hall : (items.take start ++ replacement ++ items.drop stop).take start ++
      (items.take stop).drop start ++
      (items.take start ++ replacement ++ items.drop stop).drop (start + replacement.length) =
        items := by
    rw [List.drop_left' (by rw [List.length_append, hlen]), List.append_assoc (items.take start),
      List.take_left' hlen]
    calc items.take start ++ (items.take stop).drop start ++ items.drop stop
        = (items.take stop).take start ++ (items.take stop).drop start ++ items.drop stop := by
          rw [List.take_take, Nat.min_eq_left hstart]
      _ = items := by rw [List.take_append_drop, List.take_append_drop]
  rw [Splices.back ⟨hlist, hstart, hstop⟩ |>.splice, hout, hall, withList_withList hlist,
    withList_list? hlist]

theorem spliceAt_of_splices (hget : tree.get? path = some old)
    (h : Splices slot start stop items old) (replacement : List Node) :
    ∃ edited, tree.spliceAt path slot start stop replacement =
        some (.ok ((items.take stop).drop start), edited) ∧
      Swapped old (old.withList slot (items.take start ++ replacement ++ items.drop stop))
        path tree edited := by
  obtain ⟨edited, -, hswap⟩ := replaceAt_of_get? hget
    (old.withList slot (items.take start ++ replacement ++ items.drop stop))
  refine ⟨edited, hswap.editAt ?_, hswap⟩
  rw [h.splice]

/-- A splice that fails leaves the tree as it is. -/
theorem spliceAt_of_not_splices (hget : tree.get? path = some old)
    (h : ∀ items, ¬ Splices slot start stop items old) (replacement : List Node) :
    ∃ fault, tree.spliceAt path slot start stop replacement = some (.error fault, tree) := by
  obtain ⟨fault, hfault⟩ := splice_of_not_splices h replacement
  refine ⟨fault, (Swapped.refl hget).editAt ?_⟩
  rw [hfault]

/-- A splice that cannot be made is the only one that fails, and it changes nothing. -/
theorem spliceAt_eq_error (hget : tree.get? path = some old) {fault : TreeFault}
    (h : tree.spliceAt path slot start stop replacement = some (.error fault, edited)) :
    (∀ items, ¬ Splices slot start stop items old) ∧ edited = tree := by
  by_cases hin : ∀ items, ¬ Splices slot start stop items old
  · obtain ⟨fault', hfault⟩ := spliceAt_of_not_splices hget hin replacement
    cases hfault.symm.trans h
    exact ⟨hin, rfl⟩
  · obtain ⟨items, hsplices⟩ := not_forall_not.1 hin
    obtain ⟨edited', heq, -⟩ := spliceAt_of_splices hget hsplices replacement
    cases heq.symm.trans h

theorem Splices.spliceAt_back (h : Splices slot start stop items old)
    (hswap : Swapped old (old.withList slot (items.take start ++ replacement ++ items.drop stop))
      path tree edited) :
    edited.spliceAt path slot start (start + replacement.length) ((items.take stop).drop start) =
      some (.ok replacement, tree) := by
  refine hswap.symm.editAt ?_
  rw [h.splice_back]

/-! ## Edits and what they leave alone -/

/-- Nothing changes beside the path, and above it nothing but the way down. -/
structure Intact (path : Path) (tree edited : Node) : Prop where
  beside : ∀ other, ¬ other <+: path → ¬ path <+: other → edited.get? other = tree.get? other
  above : ∀ other, ¬ path <+: other →
    (edited.get? other).map hollow = (tree.get? other).map hollow

theorem Swapped.intact (h : Swapped old new path tree edited) : Intact path tree edited :=
  ⟨fun _ hup hdown => h.get?_beside hup hdown, fun _ hdown => h.hollow_get? hdown⟩

/-- **Edits by path are local and reversible.** An edit is handed the node that
reading finds. A replacement stands at the path with all that is below it, and
can be taken back. A splice fails if and only if the node keeps no list there or
the range does not lie within it, and then the tree is as before; otherwise the
list is spliced, the node is the same but for that list, and splicing back what
was taken out returns what was put in and restores the tree. All else stays. -/
theorem edits_by_path (tree : Node) (path : Path) :
    (∀ {α : Type} (edit : Node → α × Node),
      (tree.editAt edit path).map Prod.fst = (tree.get? path).map fun target => (edit target).1) ∧
    ∀ target, tree.get? path = some target →
      (∀ replacement, ∃ edited, tree.replaceAt path replacement = some (target, edited) ∧
        (∀ below, edited.get? (path ++ below) = replacement.get? below) ∧
        Intact path tree edited ∧
        edited.replaceAt path target = some (replacement, tree)) ∧
      ∀ slot start stop replacement,
        ((∃ fault edited, tree.spliceAt path slot start stop replacement =
            some (.error fault, edited)) ↔
          target.list? slot = none ∨ stop < start ∨
            ∃ items, target.list? slot = some items ∧ items.length < stop) ∧
        (∀ fault edited, tree.spliceAt path slot start stop replacement =
          some (.error fault, edited) → edited = tree) ∧
        ∀ items, target.list? slot = some items → start ≤ stop → stop ≤ items.length →
          ∃ edited target', tree.spliceAt path slot start stop replacement =
              some (.ok ((items.take stop).drop start), edited) ∧
            edited.get? path = some target' ∧
            target'.children? slot = some (items.take start ++ replacement ++ items.drop stop) ∧
            (∀ other, other ≠ slot → target'.children? other = target.children? other) ∧
            target'.hollow = target.hollow ∧
            Intact path tree edited ∧
            edited.spliceAt path slot start (start + replacement.length)
              ((items.take stop).drop start) = some (.ok replacement, tree) := by
  refine ⟨fun edit => map_fst_editAt edit tree path, ?_⟩
  intro target hget
  refine ⟨?_, ?_⟩
  · intro replacement
    obtain ⟨edited, heq, hswap⟩ := replaceAt_of_get? hget replacement
    exact ⟨edited, heq, hswap.get?_append, hswap.intact, hswap.symm.editAt rfl⟩
  · intro slot start stop replacement
    rw [← forall_not_splices]
    refine ⟨⟨?_, ?_⟩, ?_, ?_⟩
    · intro hfails
      obtain ⟨fault, edited, heq⟩ := hfails
      exact (spliceAt_eq_error hget heq).1
    · intro hin
      obtain ⟨fault, heq⟩ := spliceAt_of_not_splices hget hin replacement
      exact ⟨fault, tree, heq⟩
    · exact fun fault edited heq => (spliceAt_eq_error hget heq).2
    · intro items hlist hstart hstop
      have hsplices : Splices slot start stop items target := ⟨hlist, hstart, hstop⟩
      obtain ⟨edited, heq, hswap⟩ := spliceAt_of_splices hget hsplices replacement
      refine ⟨edited, _, heq, hswap.symm.get?, ?_, ?_, ?_, hswap.intact, ?_⟩
      · exact children?_of_list? (list?_withList hlist)
      · exact fun other hne => children?_withList_of_ne hne
      · exact hollow_withList hlist
      · exact hsplices.spliceAt_back hswap

end Node

/-! ## Sessions -/

/-- One edit of a session. -/
inductive Edit where
  | replace (path : Path) (replacement : Node)
  | splice (path : Path) (slot : Slot) (start stop : Nat) (replacement : List Node)

namespace Edit

/-- Where the edit is made. -/
def path : Edit → Path
  | replace path _ => path
  | splice path _ _ _ _ => path

/-- The tree after an edit, and the edit that takes it back. An edit that cannot
be made changes nothing and leaves nothing to take back. -/
def apply (tree : Node) : Edit → Node × List Edit
  | replace path replacement =>
    match tree.replaceAt path replacement with
    | some (old, edited) => (edited, [replace path old])
    | none => (tree, [])
  | splice path slot start stop replacement =>
    match tree.spliceAt path slot start stop replacement with
    | some (.ok removed, edited) =>
      (edited, [splice path slot start (start + replacement.length) removed])
    | some (.error _, edited) => (edited, [])
    | none => (tree, [])

/-- The tree after a session, and the session that takes it back, last edit
first. -/
def applyAll (tree : Node) : List Edit → Node × List Edit
  | [] => (tree, [])
  | edit :: rest =>
    let (edited, undo) := edit.apply tree
    let (final, undoRest) := applyAll edited rest
    (final, undoRest ++ undo)

/-- An edit that is made swaps the node at its path and can be taken back; one
that is not made leaves the tree as it is. -/
theorem apply_cases (edit : Edit) (tree : Node) :
    edit.apply tree = (tree, []) ∨
    ∃ old new edited undo, edit.apply tree = (edited, [undo]) ∧
      Node.Swapped old new edit.path tree edited ∧ (undo.apply edited).1 = tree := by
  cases edit with
  | replace path replacement =>
    cases hget : tree.get? path with
    | none =>
      have hnone := Node.editAt_of_get?_eq_none (fun old => (old, replacement)) hget
      exact .inl (by rw [apply, Node.replaceAt, hnone])
    | some old =>
      obtain ⟨edited, heq, hswap⟩ := Node.replaceAt_of_get? hget replacement
      have hback : edited.replaceAt path old = some (replacement, tree) := hswap.symm.editAt rfl
      exact .inr ⟨old, replacement, edited, replace path old, by rw [apply, heq], hswap,
        by rw [apply, hback]⟩
  | splice path slot start stop replacement =>
    cases hget : tree.get? path with
    | none => exact .inl (by rw [apply, Node.spliceAt, Node.editAt_of_get?_eq_none _ hget])
    | some old =>
      by_cases hin : ∀ items, ¬ Node.Splices slot start stop items old
      · obtain ⟨fault, hfault⟩ := Node.spliceAt_of_not_splices hget hin replacement
        exact .inl (by rw [apply, hfault])
      · obtain ⟨items, hsplices⟩ := not_forall_not.1 hin
        obtain ⟨edited, heq, hswap⟩ := Node.spliceAt_of_splices hget hsplices replacement
        exact .inr ⟨old, _, edited, _, by rw [apply, heq], hswap,
          by rw [apply, hsplices.spliceAt_back hswap]⟩

theorem applyAll_append (tree : Node) (first second : List Edit) :
    (applyAll tree (first ++ second)).1 = (applyAll (applyAll tree first).1 second).1 := by
  induction first generalizing tree with
  | nil => rfl
  | cons edit rest ih => exact ih (edit.apply tree).1

/-- A session is undone by the edits that take it back, from the last one to the
first. -/
theorem undo_session (tree : Node) (edits : List Edit) :
    (applyAll (applyAll tree edits).1 (applyAll tree edits).2).1 = tree := by
  induction edits generalizing tree with
  | nil => rfl
  | cons edit rest ih =>
    show (applyAll (applyAll (edit.apply tree).1 rest).1
      ((applyAll (edit.apply tree).1 rest).2 ++ (edit.apply tree).2)).1 = tree
    rw [applyAll_append, ih (edit.apply tree).1]
    rcases edit.apply_cases tree with hsame | ⟨_, _, edited, undo, heq, -, hundo⟩
    · rw [hsame]
      rfl
    · rw [heq]
      exact hundo

/-- What lies beside all edits of a session reads as before. -/
theorem session_beside (tree : Node) (edits : List Edit) (other : Path)
    (h : ∀ edit ∈ edits, ¬ other <+: edit.path ∧ ¬ edit.path <+: other) :
    (applyAll tree edits).1.get? other = tree.get? other := by
  induction edits generalizing tree with
  | nil => rfl
  | cons edit rest ih =>
    obtain ⟨hedit, hrest⟩ := List.forall_mem_cons.1 h
    have hlater := ih (edit.apply tree).1 hrest
    rcases edit.apply_cases tree with hsame | ⟨_, _, edited, _, heq, hswap, -⟩
    · rw [hsame] at hlater
      rw [applyAll, hsame]
      exact hlater
    · rw [heq] at hlater
      rw [applyAll, heq]
      exact hlater.trans (hswap.get?_beside hedit.1 hedit.2)

end Edit

end LatexFormatter
