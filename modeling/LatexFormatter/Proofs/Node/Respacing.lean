import LatexFormatter.Node.Relations
import LatexFormatter.Proofs.Node.Normal
import Mathlib.Data.List.Induction

/-
  What normalization does to a tree. `Respaced` says it without a word about how
  it is done: a node keeps its kind, its name and its text, and a list keeps its
  nodes that are no space, each of them respaced in its turn. A list falls into
  runs of space and the nodes between them; in the place of a run there is one
  node if space counts there (`Remains`), and nothing otherwise. There is exactly
  one such tree, the one that `normalize` gives, and the nodes it lacks are as
  many as were counted (`normalize_touches_only_space`).
-/

namespace LatexFormatter.Node

/-! ## How a tree is respaced -/

/-- Space counts between these neighbours: neither is a block, and in the body of
an environment neither is missing, which it is at an end of the list. -/
def Counts (inBody : Bool) (before after : Option Node) : Prop :=
  (∀ node, before = some node ∨ after = some node → node.isEnvironmentLike = false) ∧
    (inBody = true → before ≠ none ∧ after ≠ none)

/-- What is left of a run of space nodes between two neighbours. -/
inductive Remains (inBody : Bool) (before : Option Node) (run : List Node) (after : Option Node) :
    List Node → Prop
  | parbreak (hrun : parbreak ∈ run) (h : Counts inBody before after) :
      Remains inBody before run after [parbreak]
  | whitespace (hrun : run ≠ []) (hbreak : parbreak ∉ run) (h : Counts inBody before after) :
      Remains inBody before run after [whitespace]
  | nothing (h : run = [] ∨ ¬ Counts inBody before after) : Remains inBody before run after []

mutual

/-- The second tree is the first one but for space nodes. -/
inductive Respaced : Node → Node → Prop
  | list {content content' : List Node} (h : RespacedList false none content content') :
      Respaced (list content) (list content')
  | string (content : String) : Respaced (string content) (string content)
  | whitespace : Respaced whitespace whitespace
  | parbreak : Respaced parbreak parbreak
  | command (name : String) {args args' : Option (List Node)} (h : RespacedArgs args args') :
      Respaced (command name args) (command name args')
  | environment (name : String) {args args' : Option (List Node)} {body body' : List Node}
      (hargs : RespacedArgs args args') (hbody : RespacedList true none body body') :
      Respaced (environment name args body) (environment name args' body')
  | mathEnvironment (name : String) {body body' : List Node}
      (h : RespacedList true none body body') :
      Respaced (mathEnvironment name body) (mathEnvironment name body')
  | inlineMath {content content' : List Node} (h : RespacedList false none content content') :
      Respaced (inlineMath content) (inlineMath content')
  | displayMath {content content' : List Node} (h : RespacedList false none content content') :
      Respaced (displayMath content) (displayMath content')
  | group {content content' : List Node} (h : RespacedList false none content content') :
      Respaced (group content) (group content')
  | script (mark : Mark) {base base' : Option Node} (h : RespacedBase base base') :
      Respaced (script mark base) (script mark base')
  | verbatim (content : String) : Respaced (verbatim content) (verbatim content)
  | verb (delimiter : Char) (content : String) :
      Respaced (verb delimiter content) (verb delimiter content)
  | commentEnvironment (content : String) :
      Respaced (commentEnvironment content) (commentEnvironment content)
  | comment (content : String) (sameline : Bool) :
      Respaced (comment content sameline) (comment content sameline)
  | arguments {content content' : List Node} (h : RespacedList false none content content') :
      Respaced (arguments content) (arguments content')

/-- The second list is the first one but for space nodes, given the node before
the list. The first list is a run of space at its end, or a run of space, a node
and a list that follows this node. -/
inductive RespacedList : Bool → Option Node → List Node → List Node → Prop
  | last {inBody : Bool} {before : Option Node} {run left : List Node}
      (hrun : ∀ node ∈ run, node.isSpace = true) (hleft : Remains inBody before run none left) :
      RespacedList inBody before run left
  | next {inBody : Bool} {before : Option Node} {run left : List Node} {node node' : Node}
      {rest rest' : List Node} (hrun : ∀ node ∈ run, node.isSpace = true)
      (hleft : Remains inBody before run (some node) left) (hsolid : node.isSpace = false)
      (hnode : Respaced node node') (hrest : RespacedList inBody (some node) rest rest') :
      RespacedList inBody before (run ++ node :: rest) (left ++ node' :: rest')

inductive RespacedArgs : Option (List Node) → Option (List Node) → Prop
  | none : RespacedArgs none none
  | some {content content' : List Node} (h : RespacedList false none content content') :
      RespacedArgs (some content) (some content')

inductive RespacedBase : Option Node → Option Node → Prop
  | none : RespacedBase none none
  | some {base base' : Node} (h : Respaced base base') : RespacedBase (some base) (some base')

end

/-! ## Runs of space -/

/-- The state in which collapsing is after a run of space nodes. -/
structure RunIs (run : List Node) (state : Option Bool) : Prop where
  spaces : ∀ node ∈ run, node.isSpace = true
  empty : state = none ↔ run = []
  broken : state = some true ↔ parbreak ∈ run

theorem runIs_nil : RunIs [] none := ⟨by simp, by simp, by simp⟩

theorem RunIs.snoc {run : List Node} {state : Option Bool} (h : RunIs run state) (broken : Bool) :
    RunIs (run ++ [spaceNode broken]) (some (broken || state.getD false)) := by
  refine ⟨?_, by simp, ?_⟩
  · rintro node hnode
    rcases List.mem_append.1 hnode with hnode | hnode
    · exact h.spaces node hnode
    · rw [List.mem_singleton.1 hnode]
      cases broken <;> rfl
  · have hstate : state.getD false = true ↔ parbreak ∈ run := by
      rw [← h.broken]
      cases state <;> simp
    cases broken with
    | true => simp [spaceNode]
    | false => simp [spaceNode, hstate]

/-- Collapsing comes to the end of a run in the state of the run. -/
theorem exists_runIs {run : List Node} (hrun : ∀ node ∈ run, node.isSpace = true) :
    ∃ state, RunIs run state ∧ ∀ inBody before rest,
      collapseFrom inBody before none (run ++ rest) = collapseFrom inBody before state rest := by
  induction run using List.reverseRecOn with
  | nil => exact ⟨none, runIs_nil, fun _ _ _ => rfl⟩
  | append_singleton run last ih =>
    obtain ⟨hfront, hlast⟩ := List.forall_mem_append.1 hrun
    obtain ⟨broken, rfl⟩ := exists_spaceNode (hlast last (by simp))
    obtain ⟨state, hstate, hcollapse⟩ := ih hfront
    refine ⟨some (broken || state.getD false), hstate.snoc broken, ?_⟩
    intro inBody before rest
    rw [List.append_assoc, hcollapse, List.singleton_append, collapseFrom_spaceNode]

theorem map_normalize_of_spaces {run : List Node} (h : ∀ node ∈ run, node.isSpace = true) :
    run.map normalize = run := by
  rw [List.map_congr_left fun node hnode => normalize_of_isSpace (h node hnode), List.map_id']

theorem isEnvironmentLike_normalize (node : Node) :
    node.normalize.isEnvironmentLike = node.isEnvironmentLike := by
  cases node <;> rfl

theorem counts_iff {inBody : Bool} {before after : Option Node} :
    Counts inBody before after ↔
      dropsSpace inBody (before.map normalize) = false ∧
        dropsSpace inBody (after.map normalize) = false := by
  cases before <;> cases after <;> cases inBody <;>
    simp [Counts, dropsSpace, isEnvironmentLike_normalize, or_imp, forall_and]

/-- What collapsing leaves of a run is what remains of it. -/
theorem remains_iff {inBody : Bool} {before after : Option Node} {run left : List Node}
    {state : Option Bool} (h : RunIs run state) :
    Remains inBody before run after left ↔
      left = gap inBody (before.map normalize) state (after.map normalize) := by
  have hdrops : ¬ Counts inBody before after ↔ (dropsSpace inBody (before.map normalize) ||
      dropsSpace inBody (after.map normalize)) = true := by
    rw [counts_iff, ← Bool.or_eq_false_iff, Bool.not_eq_false]
  cases state with
  | none =>
    obtain rfl := h.empty.1 rfl
    refine ⟨fun hr => ?_, fun hleft => hleft ▸ .nothing (Or.inl rfl)⟩
    cases hr with
    | parbreak hrun _ => simp at hrun
    | whitespace hrun _ _ => exact absurd rfl hrun
    | nothing _ => rfl
  | some broken =>
    have hne : run ≠ [] := fun hrun => by simpa using h.empty.2 hrun
    have hbroken : broken = true ↔ parbreak ∈ run := by simpa using h.broken
    by_cases hcounts : Counts inBody before after
    · have hkept : (dropsSpace inBody (before.map normalize) ||
          dropsSpace inBody (after.map normalize)) = false :=
        Bool.or_eq_false_iff.2 (counts_iff.1 hcounts)
      simp only [gap, hkept, Bool.false_eq_true, if_false]
      refine ⟨fun hr => ?_, fun hleft => ?_⟩
      · cases hr with
        | parbreak hrun _ => rw [if_pos (hbroken.2 hrun)]
        | whitespace _ hbreak _ => rw [if_neg fun h => hbreak (hbroken.1 h)]
        | nothing hnone => exact absurd hcounts (hnone.resolve_left hne)
      · subst hleft
        cases broken with
        | true => exact .parbreak (hbroken.1 rfl) hcounts
        | false => exact .whitespace hne (fun h => by simpa using hbroken.2 h) hcounts
    · simp only [gap, hdrops.1 hcounts, if_true]
      refine ⟨fun hr => ?_, fun hleft => hleft ▸ .nothing (Or.inr hcounts)⟩
      cases hr with
      | parbreak _ h => exact absurd h hcounts
      | whitespace _ _ h => exact absurd h hcounts
      | nothing _ => rfl

/-! ## Normalization respaces, and nothing else does -/

/-- A list of a tree after normalization, from its nodes after normalization. -/
theorem tidied_iff {inBody : Bool} {items out : List Node} :
    out = (collapseCounting inBody (tidyAll items)).1 ↔
      out = collapseFrom inBody none none (items.map normalize) := by
  rw [← tidyAll_fst]
  rfl

/-- It is enough to respace a list the way it is collapsed. -/
theorem RespacedList.tidied {inBody : Bool} {items : List Node}
    (h : RespacedList inBody none ([] ++ items)
      (collapseFrom inBody none none (items.map normalize))) :
    RespacedList inBody none items (collapseCounting inBody (tidyAll items)).1 := by
  rw [tidied_iff.1 rfl]
  exact h

mutual

theorem respaced_normalize : ∀ node : Node, Respaced node node.normalize
  | list content => .list (respacedList_collapseFrom false content none runIs_nil).tidied
  | string content => .string content
  | whitespace => .whitespace
  | parbreak => .parbreak
  | command name args => .command name (respacedArgs_tidyArgs args)
  | environment name args body =>
    .environment name (respacedArgs_tidyArgs args)
      (respacedList_collapseFrom true body none runIs_nil).tidied
  | mathEnvironment name body =>
    .mathEnvironment name (respacedList_collapseFrom true body none runIs_nil).tidied
  | inlineMath content =>
    .inlineMath (respacedList_collapseFrom false content none runIs_nil).tidied
  | displayMath content =>
    .displayMath (respacedList_collapseFrom false content none runIs_nil).tidied
  | group content => .group (respacedList_collapseFrom false content none runIs_nil).tidied
  | script mark base => .script mark (respacedBase_tidyBase base)
  | verbatim content => .verbatim content
  | verb delimiter content => .verb delimiter content
  | commentEnvironment content => .commentEnvironment content
  | comment content sameline => .comment content sameline
  | arguments content => .arguments (respacedList_collapseFrom false content none runIs_nil).tidied

/-- Collapsing respaces a list, from the middle of a run of space on. -/
theorem respacedList_collapseFrom (inBody : Bool) : ∀ (items : List Node) (before : Option Node)
    {run : List Node} {state : Option Bool}, RunIs run state →
    RespacedList inBody before (run ++ items)
      (collapseFrom inBody (before.map normalize) state (items.map normalize))
  | [], before, run, state, hrun => by
    rw [List.append_nil]
    exact .last hrun.spaces ((remains_iff hrun).2 rfl)
  | node :: rest, before, run, state, hrun => by
    rw [List.map_cons]
    cases hspace : node.isSpace with
    | true =>
      obtain ⟨broken, rfl⟩ := exists_spaceNode hspace
      have hlonger := respacedList_collapseFrom inBody rest before (hrun.snoc broken)
      rwa [normalize_of_isSpace hspace, collapseFrom_spaceNode, List.append_cons]
    | false =>
      rw [collapseFrom_cons ((isSpace_normalize node).trans hspace)]
      exact .next hrun.spaces ((remains_iff hrun).2 rfl) hspace (respaced_normalize node)
        (respacedList_collapseFrom inBody rest (some node) runIs_nil)

theorem respacedArgs_tidyArgs : ∀ args : Option (List Node), RespacedArgs args (tidyArgs args).1
  | none => .none
  | some content => .some (respacedList_collapseFrom false content none runIs_nil).tidied

theorem respacedBase_tidyBase : ∀ base : Option Node, RespacedBase base (tidyBase base).1
  | none => .none
  | some base => .some (respaced_normalize base)

end

mutual

theorem Respaced.eq_normalize : ∀ {node other : Node}, Respaced node other →
    other = node.normalize
  | _, _, .list h => congrArg Node.list (tidied_iff.2 h.eq_collapseFrom)
  | _, _, .string _ => rfl
  | _, _, .whitespace => rfl
  | _, _, .parbreak => rfl
  | _, _, .command name h => congrArg (Node.command name) h.eq_tidyArgs
  | _, _, .environment name hargs hbody =>
    congrArg₂ (Node.environment name) hargs.eq_tidyArgs (tidied_iff.2 hbody.eq_collapseFrom)
  | _, _, .mathEnvironment name h =>
    congrArg (Node.mathEnvironment name) (tidied_iff.2 h.eq_collapseFrom)
  | _, _, .inlineMath h => congrArg Node.inlineMath (tidied_iff.2 h.eq_collapseFrom)
  | _, _, .displayMath h => congrArg Node.displayMath (tidied_iff.2 h.eq_collapseFrom)
  | _, _, .group h => congrArg Node.group (tidied_iff.2 h.eq_collapseFrom)
  | _, _, .script mark h => congrArg (Node.script mark) h.eq_tidyBase
  | _, _, .verbatim _ => rfl
  | _, _, .verb _ _ => rfl
  | _, _, .commentEnvironment _ => rfl
  | _, _, .comment _ _ => rfl
  | _, _, .arguments h => congrArg Node.arguments (tidied_iff.2 h.eq_collapseFrom)

theorem RespacedList.eq_collapseFrom : ∀ {inBody : Bool} {before : Option Node}
    {items out : List Node}, RespacedList inBody before items out →
    out = collapseFrom inBody (before.map normalize) none (items.map normalize)
  | inBody, before, run, _, .last hrun hleft => by
    obtain ⟨state, hstate, hcollapse⟩ := exists_runIs hrun
    have hend := hcollapse inBody (before.map normalize) []
    rw [List.append_nil] at hend
    rw [map_normalize_of_spaces hrun, hend]
    exact (remains_iff hstate).1 hleft
  | inBody, before, _, _, .next hrun hleft hsolid hnode hrest => by
    obtain ⟨state, hstate, hcollapse⟩ := exists_runIs hrun
    rw [List.map_append, map_normalize_of_spaces hrun, hcollapse, List.map_cons,
      collapseFrom_cons ((isSpace_normalize _).trans hsolid), (remains_iff hstate).1 hleft,
      hnode.eq_normalize, hrest.eq_collapseFrom]
    rfl

theorem RespacedArgs.eq_tidyArgs : ∀ {args args' : Option (List Node)}, RespacedArgs args args' →
    args' = (tidyArgs args).1
  | _, _, .none => rfl
  | _, _, .some h => congrArg Option.some (tidied_iff.2 h.eq_collapseFrom)

theorem RespacedBase.eq_tidyBase : ∀ {base base' : Option Node}, RespacedBase base base' →
    base' = (tidyBase base).1
  | _, _, .none => rfl
  | _, _, .some h => congrArg Option.some h.eq_normalize

end

/-! ## Counting nodes -/

mutual

/-- How many nodes a walk visits does not depend on where it starts. -/
theorem length_walkFrom : ∀ (node : Node) (path path' : Path) (siblings siblings' : Nat),
    (walkFrom path siblings node).length = (walkFrom path' siblings' node).length
  | list content, path, path', _, _ | inlineMath content, path, path', _, _
  | displayMath content, path, path', _, _ | group content, path, path', _, _
  | arguments content, path, path', _, _ | mathEnvironment _ content, path, path', _, _ =>
    congrArg Nat.succ (length_walkList content path path' _ _ _ _ _ _)
  | string _, _, _, _, _ | whitespace, _, _, _, _ | parbreak, _, _, _, _ | verbatim _, _, _, _, _
  | verb _ _, _, _, _, _ | commentEnvironment _, _, _, _, _ | comment _ _, _, _, _, _ => rfl
  | command _ args, path, path', _, _ => congrArg Nat.succ (length_walkArgs args path path')
  | environment _ args body, path, path', _, _ => by
    simp only [walkFrom, List.length_cons, List.length_append, length_walkArgs args path path',
      length_walkList body path path' _ .content _ body.length _ 0]
  | script _ base, path, path', _, _ => congrArg Nat.succ (length_walkBase base path path')

theorem length_walkList : ∀ (items : List Node) (path path' : Path) (slot slot' : Slot)
    (siblings siblings' index index' : Nat),
    (walkList path slot siblings index items).length
      = (walkList path' slot' siblings' index' items).length
  | [], _, _, _, _, _, _, _, _ => rfl
  | node :: rest, path, path', slot, slot', siblings, siblings', index, index' => by
    rw [walkList, walkList, List.length_append, List.length_append,
      length_walkFrom node _ (path'.child slot' index') _ siblings',
      length_walkList rest path path' slot slot' siblings siblings' _ (index' + 1)]

theorem length_walkArgs : ∀ (args : Option (List Node)) (path path' : Path),
    (walkArgs path args).length = (walkArgs path' args).length
  | none, _, _ => rfl
  | some content, path, path' => length_walkList content path path' _ _ _ _ _ _

theorem length_walkBase : ∀ (base : Option Node) (path path' : Path),
    (walkBase path base).length = (walkBase path' base).length
  | none, _, _ => rfl
  | some base, _, _ => length_walkFrom base _ _ _ _

end

/-- The number of nodes in several trees. -/
def population (items : List Node) : Nat := (items.flatMap walk).length

theorem population_cons (node : Node) (rest : List Node) :
    population (node :: rest) = node.walk.length + population rest := by
  simp [population]

theorem population_append (xs ys : List Node) :
    population (xs ++ ys) = population xs + population ys := by
  simp [population]

/-- The nodes of a slot are those of the trees in it. -/
theorem length_walkList_eq (items : List Node) (path : Path) (slot : Slot)
    (siblings index : Nat) :
    (walkList path slot siblings index items).length = population items := by
  induction items generalizing index with
  | nil => rfl
  | cons node rest ih =>
    rw [walkList, List.length_append, ih, length_walkFrom node _ [] _ 1, population_cons]
    rfl

/-- A space node is a single node. -/
theorem population_gap (inBody : Bool) (before : Option Node) (run : Option Bool)
    (after : Option Node) :
    population (gap inBody before run after) = (gap inBody before run after).length := by
  rcases gap_cases inBody before run after with h | h | h <;> rw [h] <;> rfl

/-- Collapsing takes single nodes out of a list, so that nodes below the list are
neither lost nor gained. -/
theorem population_collapseFrom (inBody : Bool) (before : Option Node) (run : Option Bool)
    (items : List Node) :
    population (collapseFrom inBody before run items) + items.length
      = population items + (collapseFrom inBody before run items).length := by
  induction items generalizing before run with
  | nil =>
    rw [collapseFrom, population_gap]
    exact Nat.add_comm _ _
  | cons node rest ih =>
    cases hspace : node.isSpace with
    | true =>
      obtain ⟨broken, rfl⟩ := exists_spaceNode hspace
      have hone : (spaceNode broken).walk.length = 1 := by cases broken <;> rfl
      have hrest := ih before (some (broken || run.getD false))
      rw [collapseFrom_spaceNode, population_cons, hone, List.length_cons]
      omega
    | false =>
      have hrest := ih (some node) none
      rw [collapseFrom_cons hspace, population_append, population_cons, population_cons,
        population_gap, List.length_append, List.length_cons, List.length_cons]
      omega

/-- What collapsing and counting makes of a list whose members have been counted. -/
theorem population_collapseCounting (inBody : Bool) {items : List Node} {tidied : List Node × Nat}
    (h : population tidied.1 + tidied.2 = population items) :
    population (collapseCounting inBody tidied).1 + (collapseCounting inBody tidied).2
      = population items := by
  have hlist := population_collapseFrom inBody none none tidied.1
  have hle := length_collapseFrom_le inBody none none tidied.1
  simp only [Option.isSome_none, Bool.false_eq_true, if_false, Nat.add_zero] at hle
  simp only [collapseCounting, collapse]
  omega

mutual

/-- The nodes of a tree are those that tidying leaves and those that it counts. -/
theorem length_walk_tidy : ∀ node : Node,
    node.tidy.1.walk.length + node.tidy.2 = node.walk.length
  | list content | inlineMath content | displayMath content | group content
  | arguments content => by
    have hcontent := population_collapseCounting false (population_tidyAll content)
    simp only [tidy, walk, walkFrom, List.length_cons, length_walkList_eq]
    omega
  | mathEnvironment _ body => by
    have hbody := population_collapseCounting true (population_tidyAll body)
    simp only [tidy, walk, walkFrom, List.length_cons, length_walkList_eq]
    omega
  | environment _ args body => by
    have hargs := length_walkArgs_tidyArgs args
    have hbody := population_collapseCounting true (population_tidyAll body)
    simp only [tidy, walk, walkFrom, List.length_cons, List.length_append, length_walkList_eq]
    omega
  | command _ args => by
    have hargs := length_walkArgs_tidyArgs args
    simp only [tidy, walk, walkFrom, List.length_cons]
    omega
  | script _ base => by
    have hbase := length_walkBase_tidyBase base
    simp only [tidy, walk, walkFrom, List.length_cons]
    omega
  | string _ | whitespace | parbreak | verbatim _ | verb _ _ | commentEnvironment _
  | comment _ _ => rfl

theorem population_tidyAll : ∀ items : List Node,
    population (tidyAll items).1 + (tidyAll items).2 = population items
  | [] => rfl
  | node :: rest => by
    have hnode := length_walk_tidy node
    have hrest := population_tidyAll rest
    simp only [tidyAll, population_cons]
    omega

theorem length_walkArgs_tidyArgs : ∀ args : Option (List Node),
    (walkArgs [] (tidyArgs args).1).length + (tidyArgs args).2 = (walkArgs [] args).length
  | none => rfl
  | some content => by
    have hcontent := population_collapseCounting false (population_tidyAll content)
    simp only [tidyArgs, walkArgs, length_walkList_eq]
    exact hcontent

theorem length_walkBase_tidyBase : ∀ base : Option Node,
    (walkBase [] (tidyBase base).1).length + (tidyBase base).2 = (walkBase [] base).length
  | none => rfl
  | some base => by
    have hbase := length_walk_tidy base
    simp only [tidyBase, walkBase, length_walkFrom _ _ [] _ 1]
    exact hbase

end

/-- Normalization respaces a tree, which can be done in one way only, and takes as
many nodes away as it counts. -/
theorem normalize_touches_only_space (node : Node) :
    (∀ other, Respaced node other ↔ other = node.normalize) ∧
      (Relations.ofNode node.normalize).size ≤ (Relations.ofNode node).size ∧
      node.excess = (Relations.ofNode node).size - (Relations.ofNode node.normalize).size := by
  have hcount : (Relations.ofNode node.normalize).size + node.excess
      = (Relations.ofNode node).size := length_walk_tidy node
  refine ⟨fun other => ⟨Respaced.eq_normalize, ?_⟩, by omega, by omega⟩
  rintro rfl
  exact respaced_normalize node

end LatexFormatter.Node
