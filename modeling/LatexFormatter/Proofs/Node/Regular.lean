import LatexFormatter.Format
import LatexFormatter.Proofs.Grammar.Transparency

/-
  The trees that are printed. A tree that was read has no list inside another
  list, no arguments apart from a command or an environment, and no line feed in
  its strings; once it is normalized, no two white space nodes stand next to
  each other in any of its lists (`regular_of_parseNormalized`).
-/

namespace LatexFormatter.Node

/-! ## Regular trees -/

def isWhitespace : Node → Bool
  | whitespace => true
  | _ => false

/-- No two white space nodes stand next to each other, and the first is none if
white space comes before. -/
def Spaced (after : Bool) : List Node → Prop
  | [] => True
  | node :: rest => (after = true → node.isWhitespace = false) ∧ Spaced node.isWhitespace rest

mutual

/-- A tree as it is read; `spaced` says whether its lists are spaced as well. -/
def Regular (spaced : Bool) : Node → Prop
  | list _ => False
  | string content => '\n' ∉ content.toList
  | whitespace => True
  | parbreak => True
  | command _ args => RegularArgs spaced args
  | environment _ args body =>
    RegularArgs spaced args ∧ (spaced = true → Spaced false body) ∧ RegularAll spaced body
  | mathEnvironment _ body => (spaced = true → Spaced false body) ∧ RegularAll spaced body
  | inlineMath content => (spaced = true → Spaced false content) ∧ RegularAll spaced content
  | displayMath content => (spaced = true → Spaced false content) ∧ RegularAll spaced content
  | group content => (spaced = true → Spaced false content) ∧ RegularAll spaced content
  | script _ base => RegularBase spaced base
  | verbatim _ => True
  | verb _ _ => True
  | commentEnvironment _ => True
  | comment _ _ => True
  | arguments _ => False

def RegularAll (spaced : Bool) : List Node → Prop
  | [] => True
  | node :: rest => Regular spaced node ∧ RegularAll spaced rest

def RegularArgs (spaced : Bool) : Option (List Node) → Prop
  | none => True
  | some content => (spaced = true → Spaced false content) ∧ RegularAll spaced content

def RegularBase (spaced : Bool) : Option Node → Prop
  | none => True
  | some base => Regular spaced base

end

theorem regularAll_iff {spaced : Bool} {items : List Node} :
    RegularAll spaced items ↔ ∀ node ∈ items, Regular spaced node := by
  induction items with
  | nil => simp [RegularAll]
  | cons node rest ih => simp [RegularAll, ih]

/-- Only a string is a single character, on its own or in a group. -/
theorem singleChar?_cases {base : Node} {c : Char} (h : base.singleChar? = some c) :
    ∃ content, content.toList = [c] ∧
      (base = .string content ∨ base = .group [.string content]) := by
  have hstring : ∀ content : String, singleChar?.ofString content = some c →
      content.toList = [c] := by
    intro content hc
    unfold singleChar?.ofString at hc
    split at hc
    · next d hd =>
      cases hc
      exact hd
    · cases hc
  unfold singleChar? at h
  split at h
  · exact ⟨_, hstring _ h, Or.inl rfl⟩
  · exact ⟨_, hstring _ h, Or.inr rfl⟩
  · cases h

/-! ## Trees that are read -/

/-- The parse tree stands for a tree that is regular apart from its spacing. -/
def IsRegular (tree : ParseTree) : Prop :=
  ∃ node, ofParseTree tree = .ok node ∧ Regular false node

theorem ofItems_regular {items : List ParseTree} (h : ∀ item ∈ items, IsRegular item) :
    ∃ nodes, ofItems items = .ok nodes ∧ RegularAll false nodes := by
  induction items with
  | nil => exact ⟨[], rfl, trivial⟩
  | cons item rest ih =>
    obtain ⟨⟨node, hnode, hregular⟩, hrest⟩ := List.forall_mem_cons.1 h
    obtain ⟨nodes, hnodes, hall⟩ := ih hrest
    refine ⟨node :: nodes, ?_, hregular, hall⟩
    simp only [ofItems, hnode, hnodes]
    rfl

theorem ofArgs_regular {args : Option ParseTree} (h : ∀ tree ∈ args, tree.IsArguments IsRegular) :
    ∃ nodes, ofArgs args = .ok nodes ∧ RegularArgs false nodes := by
  cases args with
  | none => exact ⟨none, rfl, trivial⟩
  | some tree =>
    obtain ⟨items, rfl, hitems⟩ := h tree rfl
    obtain ⟨nodes, hnodes, hall⟩ := ofItems_regular hitems
    refine ⟨some nodes, ?_, by simp, hall⟩
    simp only [ofArgs, ParseTree.enclosing, ofParseTree, ofContent, hnodes]
    rfl

/-- What the grammar reads is regular. -/
theorem grows_isRegular : Grows IsRegular where
  chars content _ hblank := by
    refine ⟨string (String.ofList content), rfl, ?_⟩
    intro hmem
    have := hblank '\n' (by simpa using hmem)
    simp [isBlank, isLineBreak] at this
  blanks kind hkind := by
    rcases hkind with rfl | rfl
    · exact ⟨whitespace, rfl, trivial⟩
    · exact ⟨parbreak, rfl, trivial⟩
  comment content sameline _ := ⟨comment (String.ofList content) sameline, rfl, trivial⟩
  enclosing kind items hkind hitems := by
    obtain ⟨nodes, hnodes, hall⟩ := ofItems_regular hitems
    rcases hkind with rfl | rfl | rfl
    · refine ⟨group nodes, ?_, by simp, hall⟩
      simp only [ParseTree.enclosing, ofParseTree, ofContent, hnodes]
      rfl
    · refine ⟨inlineMath nodes, ?_, by simp, hall⟩
      simp only [ParseTree.enclosing, ofParseTree, ofContent, hnodes]
      rfl
    · refine ⟨displayMath nodes, ?_, by simp, hall⟩
      simp only [ParseTree.enclosing, ofParseTree, ofContent, hnodes]
      rfl
  script kind base hkind hbase := by
    have h : ∃ node, ofBase base = .ok node ∧ RegularBase false node := by
      cases base with
      | none => exact ⟨none, rfl, trivial⟩
      | some tree =>
        obtain ⟨node, hnode, hregular⟩ := hbase tree rfl
        refine ⟨some node, ?_, hregular⟩
        simp only [ofBase, hnode]
        rfl
    obtain ⟨node, hnode, hregular⟩ := h
    rcases hkind with rfl | rfl
    · refine ⟨script .sub node, ?_, hregular⟩
      simp only [ofParseTree, hnode]
      rfl
    · refine ⟨script .sup node, ?_, hregular⟩
      simp only [ofParseTree, hnode]
      rfl
  command name args hargs := by
    obtain ⟨nodes, hnodes, hall⟩ := ofArgs_regular hargs
    refine ⟨command name nodes, ?_, hall⟩
    simp only [ofParseTree, hnodes]
    rfl
  verb content delimiter := ⟨verb delimiter (String.ofList content), rfl, trivial⟩
  literal kind content hkind := by
    rcases hkind with rfl | rfl
    · exact ⟨verbatim (String.ofList content), rfl, trivial⟩
    · exact ⟨commentEnvironment (String.ofList content), rfl, trivial⟩
  mathEnvironment name items hitems := by
    obtain ⟨nodes, hnodes, hall⟩ := ofItems_regular hitems
    refine ⟨mathEnvironment name nodes, ?_, by simp, hall⟩
    simp only [ofParseTree, ofContent, hnodes]
    rfl
  environment name items args hitems hargs := by
    obtain ⟨nodes, hnodes, hall⟩ := ofItems_regular hitems
    obtain ⟨others, hothers, hregular⟩ := ofArgs_regular hargs
    refine ⟨environment name others nodes, ?_, hregular, by simp, hall⟩
    simp only [ofParseTree, ofContent, hnodes, hothers]
    rfl

theorem regular_of_parse {text : String} {node : Node} (h : parse text = .ok node) :
    ∃ items, node = list items ∧ RegularAll false items := by
  unfold parse at h
  split at h
  · cases h
  · next tree hread =>
    obtain ⟨items, rfl, hitems⟩ := readDocument_grows grows_isRegular hread
    obtain ⟨nodes, hnodes, hall⟩ := ofItems_regular hitems
    simp only [ofParseTree, hnodes] at h
    cases h
    exact ⟨nodes, rfl, hall⟩

/-! ## Trees without excess space -/

/-- What remains of a run of space is one node at most, and a space node. -/
theorem gap_cases (inBody : Bool) (before : Option Node) (run : Option Bool)
    (after : Option Node) :
    gap inBody before run after = [] ∨ gap inBody before run after = [whitespace] ∨
      gap inBody before run after = [parbreak] := by
  unfold gap
  split
  · exact Or.inl rfl
  · split
    · exact Or.inl rfl
    · split
      · exact Or.inr (Or.inr rfl)
      · exact Or.inr (Or.inl rfl)

theorem isSpace_iff {node : Node} :
    node.isSpace = true ↔ node = whitespace ∨ node = parbreak := by
  cases node <;> simp [isSpace]

/-- What a node that is no space does to the run of space before it. -/
theorem collapseFrom_cons {inBody : Bool} {before : Option Node} {run : Option Bool} {node : Node}
    {rest : List Node} (h : node.isSpace = false) :
    collapseFrom inBody before run (node :: rest)
      = gap inBody before run (some node) ++ node :: collapseFrom inBody (some node) none rest := by
  cases node <;> first | rfl | simp [isSpace] at h

theorem isWhitespace_of_isSpace {node : Node} (h : node.isSpace = false) :
    node.isWhitespace = false := by
  cases node <;> first | rfl | simp [isSpace] at h

/-- Collapsing keeps what holds of the members of a list and of space nodes. -/
theorem mem_collapseFrom {inBody : Bool} {before : Option Node} {run : Option Bool}
    {items : List Node} {node : Node} (h : node ∈ collapseFrom inBody before run items) :
    node ∈ items ∨ node = whitespace ∨ node = parbreak := by
  have hgap : ∀ {before run after}, node ∈ gap inBody before run after →
      node = whitespace ∨ node = parbreak := by
    intro before run after hmem
    rcases gap_cases inBody before run after with hgap | hgap | hgap <;> rw [hgap] at hmem
    · simp at hmem
    · exact Or.inl (List.mem_singleton.1 hmem)
    · exact Or.inr (List.mem_singleton.1 hmem)
  induction items generalizing before run with
  | nil => exact Or.inr (hgap h)
  | cons first rest ih =>
    cases hspace : first.isSpace with
    | true =>
      have hrest : ∀ {run}, node ∈ collapseFrom inBody before run rest →
          node ∈ first :: rest ∨ node = whitespace ∨ node = parbreak := by
        intro run hmem
        rcases ih hmem with hmem | hmem
        · exact Or.inl (List.mem_cons_of_mem first hmem)
        · exact Or.inr hmem
      rcases isSpace_iff.1 hspace with rfl | rfl
      · exact hrest h
      · exact hrest h
    | false =>
      rw [collapseFrom_cons hspace] at h
      rcases List.mem_append.1 h with hmem | hmem
      · exact Or.inr (hgap hmem)
      · rcases List.mem_cons.1 hmem with rfl | hmem
        · exact Or.inl (List.mem_cons_self ..)
        · rcases ih hmem with hmem | hmem
          · exact Or.inl (List.mem_cons_of_mem first hmem)
          · exact Or.inr hmem

theorem spaced_collapseFrom (inBody : Bool) (before : Option Node) (run : Option Bool)
    (items : List Node) : Spaced false (collapseFrom inBody before run items) := by
  induction items generalizing before run with
  | nil =>
    simp only [collapseFrom]
    rcases gap_cases inBody before run none with hgap | hgap | hgap <;> rw [hgap] <;>
      simp [Spaced]
  | cons first rest ih =>
    cases hspace : first.isSpace with
    | true =>
      rcases isSpace_iff.1 hspace with rfl | rfl
      · exact ih _ _
      · exact ih _ _
    | false =>
      rw [collapseFrom_cons hspace]
      have hfirst := isWhitespace_of_isSpace hspace
      have hrest := ih (some first) none
      rcases gap_cases inBody before run (some first) with hgap | hgap | hgap <;> rw [hgap] <;>
        simp [Spaced, hfirst, hrest]

theorem regular_collapse {inBody : Bool} {items : List Node} (h : RegularAll true items) :
    (true = true → Spaced false (collapse inBody items)) ∧
      RegularAll true (collapse inBody items) := by
  refine ⟨fun _ => spaced_collapseFrom inBody none none items, regularAll_iff.2 ?_⟩
  intro node hnode
  rcases mem_collapseFrom hnode with hmem | rfl | rfl
  · exact regularAll_iff.1 h node hmem
  · trivial
  · trivial

mutual

theorem regular_tidy : ∀ node : Node, Regular false node → Regular true node.tidy.1
  | list _ => fun h => h.elim
  | string _ => fun h => h
  | whitespace => fun h => h
  | parbreak => fun h => h
  | command _ args => fun h => regular_tidyArgs args h
  | environment _ args body => fun h =>
    ⟨regular_tidyArgs args h.1, regular_collapse (regular_tidyAll body h.2.2)⟩
  | mathEnvironment _ body => fun h => regular_collapse (regular_tidyAll body h.2)
  | inlineMath content => fun h => regular_collapse (regular_tidyAll content h.2)
  | displayMath content => fun h => regular_collapse (regular_tidyAll content h.2)
  | group content => fun h => regular_collapse (regular_tidyAll content h.2)
  | script _ base => fun h => regular_tidyBase base h
  | verbatim _ => fun h => h
  | verb _ _ => fun h => h
  | commentEnvironment _ => fun h => h
  | comment _ _ => fun h => h
  | arguments _ => fun h => h.elim

theorem regular_tidyAll : ∀ items : List Node, RegularAll false items →
    RegularAll true (tidyAll items).1
  | [] => fun h => h
  | node :: rest => fun h => ⟨regular_tidy node h.1, regular_tidyAll rest h.2⟩

theorem regular_tidyArgs : ∀ args : Option (List Node), RegularArgs false args →
    RegularArgs true (tidyArgs args).1
  | none => fun h => h
  | some content => fun h => regular_collapse (regular_tidyAll content h.2)

theorem regular_tidyBase : ∀ base : Option Node, RegularBase false base →
    RegularBase true (tidyBase base).1
  | none => fun h => h
  | some base => fun h => regular_tidy base h

end

/-- A text that can be read and normalized gives a list of regular trees, and is
spaced itself. -/
theorem regular_of_parseNormalized {text : String} {node : Node}
    (h : parseNormalized text = .ok node) :
    ∃ items, node = list items ∧ Spaced false items ∧ RegularAll true items := by
  unfold parseNormalized at h
  cases hparse : parse text with
  | error error =>
    rw [hparse] at h
    cases h
  | ok tree =>
    rw [hparse] at h
    cases h
    obtain ⟨items, rfl, hitems⟩ := regular_of_parse hparse
    obtain ⟨hspaced, hall⟩ := regular_collapse (regular_tidyAll items hitems)
    exact ⟨_, rfl, hspaced rfl, hall⟩

end LatexFormatter.Node
