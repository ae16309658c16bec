import LatexFormatter.Node.Relations
import LatexFormatter.Proofs.Node.WellFormed

/-
  What holds everywhere in a tree. A property of single nodes, which does not look
  at their children, is carried from what the grammar reads to the tree, and from
  there through the removal of excess space, without another walk through the
  grammar. `everywhere_iff_walk` says that the nodes it is asked of are the nodes
  that a walk visits.
-/

namespace LatexFormatter.Node

mutual

/-- The property holds of a node and of all nodes in it. -/
def Everywhere (holds : Node → Prop) : Node → Prop
  | list content => holds (list content) ∧ EverywhereAll holds content
  | string content => holds (string content)
  | whitespace => holds whitespace
  | parbreak => holds parbreak
  | command name args => holds (command name args) ∧ EverywhereArgs holds args
  | environment name args body =>
    holds (environment name args body) ∧ EverywhereArgs holds args ∧ EverywhereAll holds body
  | mathEnvironment name body => holds (mathEnvironment name body) ∧ EverywhereAll holds body
  | inlineMath content => holds (inlineMath content) ∧ EverywhereAll holds content
  | displayMath content => holds (displayMath content) ∧ EverywhereAll holds content
  | group content => holds (group content) ∧ EverywhereAll holds content
  | script mark base => holds (script mark base) ∧ EverywhereBase holds base
  | verbatim content => holds (verbatim content)
  | verb delimiter content => holds (verb delimiter content)
  | commentEnvironment content => holds (commentEnvironment content)
  | comment content sameline => holds (comment content sameline)
  | arguments content => holds (arguments content) ∧ EverywhereAll holds content

def EverywhereAll (holds : Node → Prop) : List Node → Prop
  | [] => True
  | node :: rest => Everywhere holds node ∧ EverywhereAll holds rest

def EverywhereArgs (holds : Node → Prop) : Option (List Node) → Prop
  | none => True
  | some content => EverywhereAll holds content

def EverywhereBase (holds : Node → Prop) : Option Node → Prop
  | none => True
  | some base => Everywhere holds base

end

variable {holds : Node → Prop}

theorem everywhereAll_iff {items : List Node} :
    EverywhereAll holds items ↔ ∀ node ∈ items, Everywhere holds node := by
  induction items with
  | nil => simp [EverywhereAll]
  | cons node rest ih => simp [EverywhereAll, ih]

theorem Everywhere.here {node : Node} (h : Everywhere holds node) : holds node := by
  cases node <;> first | exact h | exact h.1

/-! ## Every visit of a walk -/

mutual

theorem forall_walkFrom : ∀ (node : Node) (path : Path) (siblings : Nat),
    (∀ visit ∈ walkFrom path siblings node, holds visit.node) ↔ Everywhere holds node
  | list content, path, _ | inlineMath content, path, _ | displayMath content, path, _
  | group content, path, _ | arguments content, path, _ | mathEnvironment _ content, path, _ => by
    simp [walkFrom, Everywhere, forall_walkList content path]
  | string _, _, _ | whitespace, _, _ | parbreak, _, _ | verbatim _, _, _ | verb _ _, _, _
  | commentEnvironment _, _, _ | comment _ _, _, _ => by
    simp [walkFrom, Everywhere]
  | command _ args, path, _ => by
    simp [walkFrom, Everywhere, forall_walkArgs args path]
  | environment _ args body, path, _ => by
    simp [walkFrom, Everywhere, or_imp, forall_and, forall_walkArgs args path,
      forall_walkList body path]
  | script _ base, path, _ => by
    simp [walkFrom, Everywhere, forall_walkBase base path]

theorem forall_walkList : ∀ (items : List Node) (path : Path) (slot : Slot) (siblings index : Nat),
    (∀ visit ∈ walkList path slot siblings index items, holds visit.node)
      ↔ EverywhereAll holds items
  | [], _, _, _, _ => by simp [walkList, EverywhereAll]
  | node :: rest, path, slot, siblings, index => by
    rw [walkList, List.forall_mem_append, forall_walkFrom node, forall_walkList rest, EverywhereAll]

theorem forall_walkArgs : ∀ (args : Option (List Node)) (path : Path),
    (∀ visit ∈ walkArgs path args, holds visit.node) ↔ EverywhereArgs holds args
  | none, _ => by simp [walkArgs, EverywhereArgs]
  | some content, path => by rw [walkArgs, forall_walkList content, EverywhereArgs]

theorem forall_walkBase : ∀ (base : Option Node) (path : Path),
    (∀ visit ∈ walkBase path base, holds visit.node) ↔ EverywhereBase holds base
  | none, _ => by simp [walkBase, EverywhereBase]
  | some base, path => by rw [walkBase, forall_walkFrom base, EverywhereBase]

end

/-- The nodes in a tree are those that a walk visits. -/
theorem everywhere_iff_walk {tree : Node} :
    Everywhere holds tree ↔ ∀ visit ∈ tree.walk, holds visit.node :=
  (forall_walkFrom tree [] 1).symm

theorem Everywhere.and {other : Node → Prop} {node : Node} (h : Everywhere holds node)
    (h' : Everywhere other node) : Everywhere (fun node => holds node ∧ other node) node := by
  rw [everywhere_iff_walk] at h h' ⊢
  exact fun visit hvisit => ⟨h visit hvisit, h' visit hvisit⟩

/-! ## Without excess space -/

/-- A property of single nodes that removing excess space does not touch. -/
structure Survives (holds : Node → Prop) : Prop where
  whitespace : holds .whitespace
  parbreak : holds .parbreak
  tidy : ∀ node, holds node → holds node.tidy.1

theorem everywhereAll_collapse (hs : Survives holds) {items : List Node} (inBody : Bool)
    (h : EverywhereAll holds items) : EverywhereAll holds (collapse inBody items) := by
  refine everywhereAll_iff.2 ?_
  intro node hnode
  rcases mem_collapseFrom hnode with hmem | rfl | rfl
  · exact everywhereAll_iff.1 h node hmem
  · exact hs.whitespace
  · exact hs.parbreak

mutual

/-- A property that survives in each node survives in the tree. -/
theorem everywhere_tidy (hs : Survives holds) : ∀ node : Node, Everywhere holds node →
    Everywhere holds node.tidy.1
  | list content => fun h =>
    ⟨hs.tidy _ h.1, everywhereAll_collapse hs false (everywhere_tidyAll hs content h.2)⟩
  | string _ => fun h => h
  | whitespace => fun h => h
  | parbreak => fun h => h
  | command _ args => fun h => ⟨hs.tidy _ h.1, everywhere_tidyArgs hs args h.2⟩
  | environment _ args body => fun h =>
    ⟨hs.tidy _ h.1, everywhere_tidyArgs hs args h.2.1,
      everywhereAll_collapse hs true (everywhere_tidyAll hs body h.2.2)⟩
  | mathEnvironment _ body => fun h =>
    ⟨hs.tidy _ h.1, everywhereAll_collapse hs true (everywhere_tidyAll hs body h.2)⟩
  | inlineMath content => fun h =>
    ⟨hs.tidy _ h.1, everywhereAll_collapse hs false (everywhere_tidyAll hs content h.2)⟩
  | displayMath content => fun h =>
    ⟨hs.tidy _ h.1, everywhereAll_collapse hs false (everywhere_tidyAll hs content h.2)⟩
  | group content => fun h =>
    ⟨hs.tidy _ h.1, everywhereAll_collapse hs false (everywhere_tidyAll hs content h.2)⟩
  | script _ base => fun h => ⟨hs.tidy _ h.1, everywhere_tidyBase hs base h.2⟩
  | verbatim _ => fun h => h
  | verb _ _ => fun h => h
  | commentEnvironment _ => fun h => h
  | comment _ _ => fun h => h
  | arguments content => fun h =>
    ⟨hs.tidy _ h.1, everywhereAll_collapse hs false (everywhere_tidyAll hs content h.2)⟩

theorem everywhere_tidyAll (hs : Survives holds) : ∀ items : List Node, EverywhereAll holds items →
    EverywhereAll holds (tidyAll items).1
  | [] => fun h => h
  | node :: rest => fun h => ⟨everywhere_tidy hs node h.1, everywhere_tidyAll hs rest h.2⟩

theorem everywhere_tidyArgs (hs : Survives holds) : ∀ args : Option (List Node),
    EverywhereArgs holds args → EverywhereArgs holds (tidyArgs args).1
  | none => fun h => h
  | some content => fun h => everywhereAll_collapse hs false (everywhere_tidyAll hs content h)

theorem everywhere_tidyBase (hs : Survives holds) : ∀ base : Option Node,
    EverywhereBase holds base → EverywhereBase holds (tidyBase base).1
  | none => fun h => h
  | some base => fun h => everywhere_tidy hs base h

end

/-! ## Trees that are read -/

mutual

/-- What is inside a well-formed node is well-formed. -/
theorem WellFormed.everywhere : ∀ node : Node, WellFormed node → Everywhere WellFormed node
  | list _ => fun h => h.elim
  | string _ => fun h => h
  | whitespace => fun h => h
  | parbreak => fun h => h
  | command _ args => fun h => ⟨h, WellFormed.everywhereArgs args h.2⟩
  | environment _ args body => fun h =>
    ⟨h, WellFormed.everywhereArgs args h.2.2.2.1, WellFormed.everywhereAll body h.2.2.2.2⟩
  | mathEnvironment _ body => fun h => ⟨h, WellFormed.everywhereAll body h.2.2⟩
  | inlineMath content => fun h => ⟨h, WellFormed.everywhereAll content h⟩
  | displayMath content => fun h => ⟨h, WellFormed.everywhereAll content h⟩
  | group content => fun h => ⟨h, WellFormed.everywhereAll content h⟩
  | script _ base => fun h => ⟨h, WellFormed.everywhereBase base h⟩
  | verbatim _ => fun h => h
  | verb _ _ => fun h => h
  | commentEnvironment _ => fun h => h
  | comment _ _ => fun h => h
  | arguments _ => fun h => h.elim

theorem WellFormed.everywhereAll : ∀ items : List Node, WellFormedAll items →
    EverywhereAll WellFormed items
  | [] => fun h => h
  | node :: rest => fun h => ⟨WellFormed.everywhere node h.1, WellFormed.everywhereAll rest h.2⟩

theorem WellFormed.everywhereArgs : ∀ args : Option (List Node), WellFormedArgs args →
    EverywhereArgs WellFormed args
  | none => fun h => h
  | some content => fun h => WellFormed.everywhereAll content h

theorem WellFormed.everywhereBase : ∀ base : Option Node, WellFormedBase base →
    EverywhereBase WellFormed base
  | none => fun h => h
  | some base => fun h => WellFormed.everywhere base h.2

end

/-- The node is no string, or a string without blanks. -/
def Blankless : Node → Prop
  | string content => ∀ c ∈ content.toList, isBlank c = false
  | _ => True

/-- The parse tree stands for a tree without blanks in its strings. -/
def IsBlankless (tree : ParseTree) : Prop :=
  ∃ node, ofParseTree tree = .ok node ∧ Everywhere Blankless node

theorem ofItems_blankless {items : List ParseTree} (h : ∀ item ∈ items, IsBlankless item) :
    ∃ nodes, ofItems items = .ok nodes ∧ EverywhereAll Blankless nodes := by
  induction items with
  | nil => exact ⟨[], rfl, trivial⟩
  | cons item rest ih =>
    obtain ⟨⟨node, hnode, hholds⟩, hrest⟩ := List.forall_mem_cons.1 h
    obtain ⟨nodes, hnodes, hall⟩ := ih hrest
    refine ⟨node :: nodes, ?_, hholds, hall⟩
    simp only [ofItems, hnode, hnodes]
    rfl

theorem ofArgs_blankless {args : Option ParseTree}
    (h : ∀ tree ∈ args, tree.IsArguments IsBlankless) :
    ∃ nodes, ofArgs args = .ok nodes ∧ EverywhereArgs Blankless nodes := by
  cases args with
  | none => exact ⟨none, rfl, trivial⟩
  | some tree =>
    obtain ⟨items, rfl, hitems⟩ := h tree rfl
    obtain ⟨nodes, hnodes, hall⟩ := ofItems_blankless hitems
    refine ⟨some nodes, ?_, hall⟩
    simp only [ofArgs, ParseTree.enclosing, ofParseTree, ofContent, hnodes]
    rfl

theorem ofBase_blankless {base : Option ParseTree} (h : ∀ tree ∈ base, IsBlankless tree) :
    ∃ node, ofBase base = .ok node ∧ EverywhereBase Blankless node := by
  cases base with
  | none => exact ⟨none, rfl, trivial⟩
  | some tree =>
    obtain ⟨node, hnode, hholds⟩ := h tree rfl
    refine ⟨some node, ?_, hholds⟩
    simp only [ofBase, hnode]
    rfl

/-- The grammar reads no blank into a string. -/
theorem grows_isBlankless : Grows IsBlankless where
  chars content _ hblank := by
    refine ⟨string (String.ofList content), rfl, ?_⟩
    intro c hc
    exact hblank c (by simpa using hc)
  blanks kind hkind := by
    rcases hkind with rfl | rfl
    · exact ⟨whitespace, rfl, trivial⟩
    · exact ⟨parbreak, rfl, trivial⟩
  comment content sameline _ := ⟨comment (String.ofList content) sameline, rfl, trivial⟩
  enclosing kind items hkind hitems := by
    obtain ⟨nodes, hnodes, hall⟩ := ofItems_blankless hitems
    rcases hkind with rfl | rfl | rfl
    · refine ⟨group nodes, ?_, trivial, hall⟩
      simp only [ParseTree.enclosing, ofParseTree, ofContent, hnodes]
      rfl
    · refine ⟨inlineMath nodes, ?_, trivial, hall⟩
      simp only [ParseTree.enclosing, ofParseTree, ofContent, hnodes]
      rfl
    · refine ⟨displayMath nodes, ?_, trivial, hall⟩
      simp only [ParseTree.enclosing, ofParseTree, ofContent, hnodes]
      rfl
  script kind base hkind hbase := by
    obtain ⟨node, hnode, hholds⟩ := ofBase_blankless hbase
    rcases hkind with rfl | rfl
    · refine ⟨script .sub node, ?_, trivial, hholds⟩
      simp only [ofParseTree, hnode]
      rfl
    · refine ⟨script .sup node, ?_, trivial, hholds⟩
      simp only [ofParseTree, hnode]
      rfl
  command name args hargs := by
    obtain ⟨nodes, hnodes, hall⟩ := ofArgs_blankless hargs
    refine ⟨command name nodes, ?_, trivial, hall⟩
    simp only [ofParseTree, hnodes]
    rfl
  verb content delimiter := ⟨verb delimiter (String.ofList content), rfl, trivial⟩
  literal kind content hkind := by
    rcases hkind with rfl | rfl
    · exact ⟨verbatim (String.ofList content), rfl, trivial⟩
    · exact ⟨commentEnvironment (String.ofList content), rfl, trivial⟩
  mathEnvironment name items hitems := by
    obtain ⟨nodes, hnodes, hall⟩ := ofItems_blankless hitems
    refine ⟨mathEnvironment name nodes, ?_, trivial, hall⟩
    simp only [ofParseTree, ofContent, hnodes]
    rfl
  environment name items args hitems hargs := by
    obtain ⟨nodes, hnodes, hall⟩ := ofItems_blankless hitems
    obtain ⟨others, hothers, hargs⟩ := ofArgs_blankless hargs
    refine ⟨environment name others nodes, ?_, trivial, hargs, hall⟩
    simp only [ofParseTree, ofContent, hnodes, hothers]
    rfl

/-- What can be relied on in every node of a text that was read. -/
theorem everywhere_of_parse {text : String} {tree : Node} (h : parse text = .ok tree) :
    ∃ items, tree = list items ∧
      EverywhereAll (fun node => WellFormed node ∧ Blankless node) items := by
  rcases parse_derives text with
    ⟨error, -, herror⟩ | ⟨parsed, items, hread, hbuild, hparse, hderives⟩
  · rw [h] at herror
    cases herror
  · obtain ⟨parts, rfl, hparts⟩ := readDocument_grows grows_isBlankless hread
    obtain ⟨nodes, hnodes, hblankless⟩ := ofItems_blankless hparts
    have hsame : nodes = items := by
      simp only [ofParseTree, hnodes] at hbuild
      cases hbuild
      rfl
    subst hsame
    refine ⟨nodes, Except.ok.inj (h.symm.trans hparse), everywhereAll_iff.2 ?_⟩
    intro node hnode
    exact (everywhereAll_iff.1 (WellFormed.everywhereAll nodes hderives.wellFormed) node hnode).and
      (everywhereAll_iff.1 hblankless node hnode)

end LatexFormatter.Node
