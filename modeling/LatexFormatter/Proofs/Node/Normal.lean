import LatexFormatter.Proofs.Node.Regular

/-
  The normal form of a tree. In a normal tree every space node means something:
  it stands between two nodes that are neither space nor blocks, or, outside the
  bodies of environments, at an end of its list. `tidy` leads to a normal tree
  from any tree, parsed or not, and leaves a normal tree alone. It counts what
  it removes, and an untouched tree is one from which nothing was removed, so
  the three ways to say that a tree is done agree
  (`normalize_reaches_normal_form`).
-/

namespace LatexFormatter.Node

/-! ## What normalizing a node makes of it -/

theorem tidyAll_fst (items : List Node) : (tidyAll items).1 = items.map normalize := by
  induction items with
  | nil => rfl
  | cons node rest ih => simp [tidyAll, normalize, ih]

theorem normalize_list (items : List Node) :
    (list items).normalize = list (collapse false (items.map normalize)) := by
  simp [normalize, tidy, collapseCounting, tidyAll_fst]

theorem normalize_group (items : List Node) :
    (group items).normalize = group (collapse false (items.map normalize)) := by
  simp [normalize, tidy, collapseCounting, tidyAll_fst]

theorem normalize_inlineMath (items : List Node) :
    (inlineMath items).normalize = inlineMath (collapse false (items.map normalize)) := by
  simp [normalize, tidy, collapseCounting, tidyAll_fst]

theorem normalize_displayMath (items : List Node) :
    (displayMath items).normalize = displayMath (collapse false (items.map normalize)) := by
  simp [normalize, tidy, collapseCounting, tidyAll_fst]

theorem normalize_environment (name : String) (items : List Node) :
    (environment name none items).normalize
      = environment name none (collapse true (items.map normalize)) := by
  simp [normalize, tidy, tidyArgs, collapseCounting, tidyAll_fst]

theorem normalize_mathEnvironment (name : String) (items : List Node) :
    (mathEnvironment name items).normalize
      = mathEnvironment name (collapse true (items.map normalize)) := by
  simp [normalize, tidy, collapseCounting, tidyAll_fst]

theorem normalize_script (mark : Mark) (base : Node) :
    (script mark (some base)).normalize = script mark (some base.normalize) := rfl

@[simp] theorem isSpace_normalize (node : Node) : node.normalize.isSpace = node.isSpace := by
  cases node <;> simp [normalize, tidy, isSpace]

theorem normalize_of_isSpace {node : Node} (h : node.isSpace = true) : node.normalize = node := by
  rcases isSpace_iff.1 h with rfl | rfl <;> rfl

/-! ## Normal trees -/

/-- What may stand beside a space node: no space and no block. The end of the
list may, except in the body of an environment. -/
def Bounds (inBody : Bool) : Option Node → Prop
  | none => inBody = false
  | some node => node.isSpace = false ∧ node.isEnvironmentLike = false

/-- Every space node of a list has bounds on both sides, given what comes before
the list. -/
def Spread (inBody : Bool) (before : Option Node) : List Node → Prop
  | [] => True
  | node :: rest =>
    (node.isSpace = true → Bounds inBody before ∧ Bounds inBody rest.head?) ∧
      Spread inBody (some node) rest

mutual

/-- Space is spread in every list of the tree. -/
def Normal : Node → Prop
  | list content => Spread false none content ∧ NormalAll content
  | command _ args => NormalArgs args
  | environment _ args body => NormalArgs args ∧ Spread true none body ∧ NormalAll body
  | mathEnvironment _ body => Spread true none body ∧ NormalAll body
  | inlineMath content => Spread false none content ∧ NormalAll content
  | displayMath content => Spread false none content ∧ NormalAll content
  | group content => Spread false none content ∧ NormalAll content
  | script _ base => NormalBase base
  | arguments content => Spread false none content ∧ NormalAll content
  | string _ | whitespace | parbreak | verbatim _ | verb _ _ | commentEnvironment _
  | comment _ _ => True

def NormalAll : List Node → Prop
  | [] => True
  | node :: rest => Normal node ∧ NormalAll rest

def NormalArgs : Option (List Node) → Prop
  | none => True
  | some content => Spread false none content ∧ NormalAll content

def NormalBase : Option Node → Prop
  | none => True
  | some base => Normal base

end

theorem normalAll_iff {items : List Node} : NormalAll items ↔ ∀ node ∈ items, Normal node := by
  induction items with
  | nil => simp [NormalAll]
  | cons node rest ih => simp [NormalAll, ih]

/-! ## Collapsing one list -/

theorem length_gap_le (inBody : Bool) (before : Option Node) (run : Option Bool)
    (after : Option Node) :
    (gap inBody before run after).length ≤ if run.isSome then 1 else 0 := by
  cases run with
  | none => simp [gap]
  | some broken =>
    rcases gap_cases inBody before (some broken) after with h | h | h <;> simp [h]

theorem length_collapseFrom_le (inBody : Bool) (before : Option Node) (run : Option Bool)
    (items : List Node) :
    (collapseFrom inBody before run items).length ≤ items.length + if run.isSome then 1 else 0 := by
  induction items generalizing before run with
  | nil => simpa [collapseFrom] using length_gap_le inBody before run none
  | cons first rest ih =>
    cases hspace : first.isSpace with
    | true =>
      rcases isSpace_iff.1 hspace with rfl | rfl
      · have hrest := ih before (some (run.getD false))
        simp only [collapseFrom, List.length_cons, Option.isSome_some, if_true] at hrest ⊢
        omega
      · have hrest := ih before (some true)
        simp only [collapseFrom, List.length_cons, Option.isSome_some, if_true] at hrest ⊢
        omega
    | false =>
      have hgap := length_gap_le inBody before run (some first)
      have hrest := ih (some first) none
      rw [collapseFrom_cons hspace, List.length_append, List.length_cons]
      simp only [Option.isSome_none, Bool.false_eq_true, if_false] at hrest
      simp only [List.length_cons]
      omega

/-- A run of space that is left in its place stands between no blocks. -/
theorem dropsSpace_of_gap {inBody : Bool} {before after : Option Node} {run : Option Bool}
    {node : Node} (h : gap inBody before run after = [node]) :
    dropsSpace inBody before = false ∧ dropsSpace inBody after = false := by
  unfold gap at h
  split at h
  · simp at h
  · split at h
    · simp at h
    · next hdrops => simpa using hdrops

/-- The node that stands for a run of space. -/
def spaceNode (broken : Bool) : Node := if broken then parbreak else whitespace

theorem exists_spaceNode {node : Node} (h : node.isSpace = true) :
    ∃ broken, node = spaceNode broken := by
  rcases isSpace_iff.1 h with rfl | rfl
  · exact ⟨false, rfl⟩
  · exact ⟨true, rfl⟩

/-- A space node starts a run or goes on with one. -/
theorem collapseFrom_spaceNode (inBody : Bool) (before : Option Node) (run : Option Bool)
    (broken : Bool) (rest : List Node) :
    collapseFrom inBody before run (spaceNode broken :: rest)
      = collapseFrom inBody before (some (broken || run.getD false)) rest := by
  cases broken <;> rfl

theorem bounds_of_dropsSpace {inBody : Bool} {neighbour : Option Node}
    (hspace : ∀ node ∈ neighbour, node.isSpace = false)
    (h : dropsSpace inBody neighbour = false) : Bounds inBody neighbour := by
  cases neighbour with
  | none => exact h
  | some node => exact ⟨hspace node rfl, h⟩

theorem dropsSpace_of_bounds {inBody : Bool} {neighbour : Option Node}
    (h : Bounds inBody neighbour) : dropsSpace inBody neighbour = false := by
  cases neighbour with
  | none => exact h
  | some node => exact h.2

/-- A run of space between bounds becomes one node. -/
theorem gap_of_bounds {inBody : Bool} {before after : Option Node} (broken : Bool)
    (hbefore : Bounds inBody before) (hafter : Bounds inBody after) :
    gap inBody before (some broken) after = [spaceNode broken] := by
  have hb := dropsSpace_of_bounds hbefore
  have ha := dropsSpace_of_bounds hafter
  cases broken <;> simp [gap, spaceNode, hb, ha]

/-- What is left of a run of space between two nodes is nothing, or a space node
that has them as its bounds. -/
theorem spread_gap {inBody : Bool} {before after : Option Node} {rest : List Node}
    (run : Option Bool) (hbefore : ∀ node ∈ before, node.isSpace = false)
    (hafter : ∀ node ∈ after, node.isSpace = false) (hhead : rest.head? = after)
    (hrest : ∀ before, Spread inBody before rest) :
    Spread inBody before (gap inBody before run after ++ rest) := by
  rcases gap_cases inBody before run after with hgap | hgap | hgap <;> rw [hgap]
  · exact hrest before
  all_goals
    obtain ⟨hb, ha⟩ := dropsSpace_of_gap hgap
    refine ⟨fun _ => ⟨bounds_of_dropsSpace hbefore hb, ?_⟩, hrest _⟩
    show Bounds inBody rest.head?
    rw [hhead]
    exact bounds_of_dropsSpace hafter ha

/-- Collapsing spreads the space of a list. -/
theorem spread_collapseFrom (inBody : Bool) (before : Option Node) (run : Option Bool)
    (items : List Node) (hbefore : ∀ node ∈ before, node.isSpace = false) :
    Spread inBody before (collapseFrom inBody before run items) := by
  induction items generalizing before run with
  | nil =>
    have h : Spread inBody before (gap inBody before run none ++ []) :=
      spread_gap run hbefore (by simp) rfl fun _ => trivial
    rwa [List.append_nil] at h
  | cons first rest ih =>
    cases hspace : first.isSpace with
    | true =>
      obtain ⟨broken, rfl⟩ := exists_spaceNode hspace
      rw [collapseFrom_spaceNode]
      exact ih before _ hbefore
    | false =>
      rw [collapseFrom_cons hspace]
      refine spread_gap run hbefore (by simpa using hspace) rfl fun _ => ⟨?_, ?_⟩
      · intro htrue
        rw [hspace] at htrue
        cases htrue
      · exact ih (some first) none (by simpa using hspace)

/-- Collapsing leaves a list alone whose space is spread. -/
theorem collapseFrom_of_spread {inBody : Bool} {before : Option Node} {items : List Node}
    (h : Spread inBody before items) : collapseFrom inBody before none items = items := by
  induction items generalizing before with
  | nil => rfl
  | cons first rest ih =>
    obtain ⟨hfirst, hrest⟩ := h
    cases hspace : first.isSpace with
    | false =>
      rw [collapseFrom_cons hspace, ih hrest]
      rfl
    | true =>
      obtain ⟨hbefore, hafter⟩ := hfirst hspace
      obtain ⟨broken, rfl⟩ := exists_spaceNode hspace
      rw [collapseFrom_spaceNode, Option.getD_none, Bool.or_false]
      cases rest with
      | nil => exact gap_of_bounds broken hbefore hafter
      | cons next rest =>
        -- what follows is no space, so the run ends there
        have hnext : next.isSpace = false := hafter.1
        have htail : collapseFrom inBody (some next) none rest = rest := by
          have hfixed := ih hrest
          rw [collapseFrom_cons hnext] at hfixed
          simpa [gap] using hfixed
        have hgap : gap inBody before (some broken) (some next) = [spaceNode broken] :=
          gap_of_bounds broken hbefore hafter
        rw [collapseFrom_cons hnext, hgap, htail]
        rfl

/-- The nodes that a run of space would be if it were one node. -/
def runNodes (run : Option Bool) : List Node := (run.map spaceNode).toList

@[simp] theorem runNodes_none : runNodes none = [] := rfl

@[simp] theorem runNodes_some (broken : Bool) : runNodes (some broken) = [spaceNode broken] := rfl

theorem length_runNodes (run : Option Bool) :
    (runNodes run).length = if run.isSome then 1 else 0 := by
  cases run <;> rfl

theorem gap_of_length {inBody : Bool} {before : Option Node} {run : Option Bool}
    {after : Option Node} (h : (gap inBody before run after).length = (runNodes run).length) :
    gap inBody before run after = runNodes run := by
  cases run with
  | none => rfl
  | some broken =>
    unfold gap at h ⊢
    dsimp only at h ⊢
    split
    · next hdrops => simp [hdrops] at h
    · cases broken <;> rfl

/-- A list from which collapsing takes no node is left as it is. The run of space
before the list has to survive as well. -/
theorem collapseFrom_of_length {inBody : Bool} {before : Option Node} {run : Option Bool}
    {items : List Node}
    (h : (collapseFrom inBody before run items).length = (runNodes run ++ items).length) :
    collapseFrom inBody before run items = runNodes run ++ items := by
  induction items generalizing before run with
  | nil =>
    rw [List.append_nil] at h ⊢
    exact gap_of_length h
  | cons first rest ih =>
    cases hspace : first.isSpace with
    | true =>
      obtain ⟨broken, rfl⟩ := exists_spaceNode hspace
      rw [collapseFrom_spaceNode] at h ⊢
      cases run with
      | none =>
        rw [Option.getD_none, Bool.or_false] at h ⊢
        exact ih h
      | some earlier =>
        -- two space nodes in a row have become one, so something is missing
        have hle := length_collapseFrom_le inBody before
          (some (broken || (some earlier).getD false)) rest
        rw [← length_runNodes] at hle
        simp only [runNodes_some, List.length_append, List.length_cons, List.length_nil] at h hle
        omega
    | false =>
      have hgap := length_gap_le inBody before run (some first)
      have hrest := length_collapseFrom_le inBody (some first) none rest
      rw [← length_runNodes] at hgap hrest
      rw [collapseFrom_cons hspace] at h ⊢
      simp only [List.length_append, List.length_cons, runNodes_none, List.length_nil] at h hrest
      have hkept : gap inBody before run (some first) = runNodes run := gap_of_length (by omega)
      have htail : collapseFrom inBody (some first) none rest = rest := ih (by simp; omega)
      rw [hkept, htail]

/-! ## Collapsing and counting -/

section Counting

variable {inBody : Bool} {items : List Node} {tidied : List Node × Nat}

theorem collapseCounting_normal (h : NormalAll tidied.1) :
    Spread inBody none (collapseCounting inBody tidied).1 ∧
      NormalAll (collapseCounting inBody tidied).1 := by
  refine ⟨spread_collapseFrom inBody none none tidied.1 (by simp), normalAll_iff.2 ?_⟩
  intro node hnode
  rcases mem_collapseFrom hnode with hmem | rfl | rfl
  · exact normalAll_iff.1 h node hmem
  · trivial
  · trivial

theorem collapseCounting_of_spread (h : Spread inBody none items) (ht : tidied = (items, 0)) :
    collapseCounting inBody tidied = (items, 0) := by
  subst ht
  have hfixed : collapse inBody items = items := collapseFrom_of_spread h
  simp [collapseCounting, hfixed]

theorem collapseCounting_of_zero (h : (collapseCounting inBody tidied).2 = 0) :
    tidied.2 = 0 ∧ (collapseCounting inBody tidied).1 = tidied.1 := by
  have hle := length_collapseFrom_le inBody none none tidied.1
  simp only [collapseCounting, collapse, Nat.add_eq_zero_iff, Nat.sub_eq_zero_iff_le] at h ⊢
  exact ⟨h.1, collapseFrom_of_length (Nat.le_antisymm hle h.2)⟩

end Counting

/-! ## Whole trees -/

mutual

/-- Tidying leads to a normal tree. -/
theorem normal_tidy : ∀ node : Node, Normal node.tidy.1
  | list content => collapseCounting_normal (normalAll_tidyAll content)
  | command _ args => normalArgs_tidyArgs args
  | environment _ args body =>
    ⟨normalArgs_tidyArgs args, collapseCounting_normal (normalAll_tidyAll body)⟩
  | mathEnvironment _ body => collapseCounting_normal (normalAll_tidyAll body)
  | inlineMath content => collapseCounting_normal (normalAll_tidyAll content)
  | displayMath content => collapseCounting_normal (normalAll_tidyAll content)
  | group content => collapseCounting_normal (normalAll_tidyAll content)
  | script _ base => normalBase_tidyBase base
  | arguments content => collapseCounting_normal (normalAll_tidyAll content)
  | string _ | whitespace | parbreak | verbatim _ | verb _ _ | commentEnvironment _
  | comment _ _ => trivial

theorem normalAll_tidyAll : ∀ items : List Node, NormalAll (tidyAll items).1
  | [] => trivial
  | node :: rest => ⟨normal_tidy node, normalAll_tidyAll rest⟩

theorem normalArgs_tidyArgs : ∀ args : Option (List Node), NormalArgs (tidyArgs args).1
  | none => trivial
  | some content => collapseCounting_normal (normalAll_tidyAll content)

theorem normalBase_tidyBase : ∀ base : Option Node, NormalBase (tidyBase base).1
  | none => trivial
  | some base => normal_tidy base

end

mutual

/-- There is nothing to tidy in a normal tree. -/
theorem tidy_of_normal : ∀ node : Node, Normal node → node.tidy = (node, 0)
  | list content => fun h => by
    simp [tidy, collapseCounting_of_spread h.1 (tidyAll_of_normal content h.2)]
  | command _ args => fun h => by simp [tidy, tidyArgs_of_normal args h]
  | environment _ args body => fun h => by
    simp [tidy, tidyArgs_of_normal args h.1,
      collapseCounting_of_spread h.2.1 (tidyAll_of_normal body h.2.2)]
  | mathEnvironment _ body => fun h => by
    simp [tidy, collapseCounting_of_spread h.1 (tidyAll_of_normal body h.2)]
  | inlineMath content => fun h => by
    simp [tidy, collapseCounting_of_spread h.1 (tidyAll_of_normal content h.2)]
  | displayMath content => fun h => by
    simp [tidy, collapseCounting_of_spread h.1 (tidyAll_of_normal content h.2)]
  | group content => fun h => by
    simp [tidy, collapseCounting_of_spread h.1 (tidyAll_of_normal content h.2)]
  | script _ base => fun h => by simp [tidy, tidyBase_of_normal base h]
  | arguments content => fun h => by
    simp [tidy, collapseCounting_of_spread h.1 (tidyAll_of_normal content h.2)]
  | string _ | whitespace | parbreak | verbatim _ | verb _ _ | commentEnvironment _
  | comment _ _ => fun _ => rfl

theorem tidyAll_of_normal : ∀ items : List Node, NormalAll items → tidyAll items = (items, 0)
  | [] => fun _ => rfl
  | node :: rest => fun h => by simp [tidyAll, tidy_of_normal node h.1, tidyAll_of_normal rest h.2]

theorem tidyArgs_of_normal : ∀ args : Option (List Node), NormalArgs args →
    tidyArgs args = (args, 0)
  | none => fun _ => rfl
  | some content => fun h => by
    simp [tidyArgs, collapseCounting_of_spread h.1 (tidyAll_of_normal content h.2)]

theorem tidyBase_of_normal : ∀ base : Option Node, NormalBase base → tidyBase base = (base, 0)
  | none => fun _ => rfl
  | some base => fun h => by simp [tidyBase, tidy_of_normal base h]

end

mutual

/-- A tree from which nothing is removed stays as it is. -/
theorem tidy_of_zero : ∀ node : Node, node.tidy.2 = 0 → node.tidy.1 = node
  | list content => fun h => congrArg list (tidyList_of_zero content h)
  | command name args => fun h => congrArg (command name) (tidyArgs_of_zero args h)
  | environment name args body => fun h => by
    obtain ⟨hargs, hbody⟩ := Nat.add_eq_zero_iff.1 h
    exact congrArg₂ (environment name) (tidyArgs_of_zero args hargs) (tidyList_of_zero body hbody)
  | mathEnvironment name body => fun h => congrArg (mathEnvironment name) (tidyList_of_zero body h)
  | inlineMath content => fun h => congrArg inlineMath (tidyList_of_zero content h)
  | displayMath content => fun h => congrArg displayMath (tidyList_of_zero content h)
  | group content => fun h => congrArg group (tidyList_of_zero content h)
  | script mark base => fun h => congrArg (script mark) (tidyBase_of_zero base h)
  | arguments content => fun h => congrArg arguments (tidyList_of_zero content h)
  | string _ | whitespace | parbreak | verbatim _ | verb _ _ | commentEnvironment _
  | comment _ _ => fun _ => rfl

theorem tidyAll_of_zero : ∀ items : List Node, (tidyAll items).2 = 0 → (tidyAll items).1 = items
  | [] => fun _ => rfl
  | node :: rest => fun h => by
    obtain ⟨hnode, hrest⟩ := Nat.add_eq_zero_iff.1 h
    exact congrArg₂ List.cons (tidy_of_zero node hnode) (tidyAll_of_zero rest hrest)

theorem tidyList_of_zero {inBody : Bool} : ∀ items : List Node,
    (collapseCounting inBody (tidyAll items)).2 = 0 →
    (collapseCounting inBody (tidyAll items)).1 = items
  | items => fun h => by
    obtain ⟨hmembers, hlist⟩ := collapseCounting_of_zero h
    exact hlist.trans (tidyAll_of_zero items hmembers)

theorem tidyArgs_of_zero : ∀ args : Option (List Node), (tidyArgs args).2 = 0 →
    (tidyArgs args).1 = args
  | none => fun _ => rfl
  | some content => fun h => congrArg some (tidyList_of_zero content h)

theorem tidyBase_of_zero : ∀ base : Option Node, (tidyBase base).2 = 0 → (tidyBase base).1 = base
  | none => fun _ => rfl
  | some base => fun h => congrArg some (tidy_of_zero base h)

end

/-- Normalization reaches the normal form in one pass, from any tree. What is
normal stays as it is, and nothing else does: a tree is normal exactly when no
node is removed from it, and exactly when it does not change. -/
theorem normalize_reaches_normal_form (node : Node) :
    node.normalize.Normal ∧
      node.normalize.normalize = node.normalize ∧ node.normalize.excess = 0 ∧
      (node.excess = 0 ↔ node.Normal) ∧ (node.normalize = node ↔ node.Normal) := by
  have hnormal : node.normalize.Normal := normal_tidy node
  have hfixed : node.Normal → node.normalize = node ∧ node.excess = 0 := fun h => by
    simp [normalize, excess, tidy_of_normal node h]
  have hzero : node.excess = 0 → node.normalize = node := tidy_of_zero node
  have hself : node.normalize = node → node.Normal := fun h => h ▸ hnormal
  refine ⟨hnormal, ?_, ?_, ⟨fun h => hself (hzero h), fun h => (hfixed h).2⟩,
    ⟨hself, fun h => (hfixed h).1⟩⟩
  · simp [normalize, tidy_of_normal _ (normal_tidy node)]
  · simp [normalize, excess, tidy_of_normal _ (normal_tidy node)]

end LatexFormatter.Node
