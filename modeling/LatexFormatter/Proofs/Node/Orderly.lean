import LatexFormatter.Proofs.Grammar.Notations
import LatexFormatter.Proofs.Node.Normal

/-
  Orderly trees: trees whose nodes could each be read in the mode they stand in
  (`Orderly`), and in whose lists no two neighbours could be read as anything else:
  a word or a command ends where its text ends, nothing behind a command opens
  arguments, and in math no space stands beside what would take it along
  (`Legible`). There are no argument lists in them, and the base of a script is in
  braces or a single character.
-/

namespace LatexFormatter.Node

/-! ## Neighbours -/

def isString : Node → Bool
  | string _ => true
  | _ => false

/-- A mark that stands for itself in any mode. -/
def isMark : Node → Bool
  | string content => content.toList == ['&'] || content.toList == ['#']
  | _ => false

theorem isMark_string {content : String} :
    (string content).isMark = true ↔ content.toList = ['&'] ∨ content.toList = ['#'] := by
  simp [isMark]

/-- In math, the blanks behind such a node are read along with it. -/
def takesSpace : Node → Bool
  | group _ => true
  | node => node.isMark

/-- In math, the blanks before such a node are read along with it. -/
def takesSpaceBefore : Node → Bool
  | script _ _ => true
  | node => node.takesSpace

/-- Neither of two neighbours is a space that the other would take along. -/
def isApart (node next : Node) : Bool :=
  !(node.takesSpace && next.isSpace) && !(node.isSpace && next.takesSpaceBefore)

/-- The text of the strings at the head of a list. -/
def leadingText : List Node → List Char
  | string content :: rest => content.toList ++ leadingText rest
  | _ => []

theorem leadingText_of_head {items : List Node} (h : ∀ node ∈ items.head?, node.isString = false) :
    leadingText items = [] := by
  cases items with
  | nil => rfl
  | cons node rest =>
    have := h node (by simp)
    cases node <;> first | rfl | simp [isString] at this

/-- What would be read as the arguments of a command before it. -/
def opensArguments : List Node → Bool
  | whitespace :: rest => opensArguments rest
  | string content :: _ => content.toList.head? == some '['
  | _ => false

/-- The node ends where its text ends, whatever the rest of the list is. -/
def Ends (mode : Mode) (rest : List Node) : Node → Prop
  | string content => mode = .text → content.toList ≠ [] ∧ ((string content).isMark = true ∨
      wordLength (content.toList ++ leadingText rest) = content.toList.length)
  | command name _ => opensArguments rest = false ∧ ((∀ c ∈ name.toList, isLetter c = true) →
      ∀ c ∈ (leadingText rest).head?, isLetter c = false)
  | _ => True

/-- Every node of a list ends where its text ends, and in math it stands apart from
the next. -/
def Legible (mode : Mode) : List Node → Prop
  | [] => True
  | node :: rest =>
    Ends mode rest node ∧ (mode = .math → ∀ next ∈ rest.head?, isApart node next = true) ∧
      Legible mode rest

/-! ## Orderly trees -/

/-- A string that is read as one token. -/
def IsToken : Mode → List Char → Prop
  | .text, content => content = ['&'] ∨ content = ['#'] ∨
      content ≠ [] ∧ ∀ c ∈ content, isPlain c = true ∨ isPunctuation c = true
  | .math, content => ∃ c, content = [c] ∧ (c = '&' ∨ c = '#' ∨ isMathChar c = true)
  | .arguments, _ => False

/-- A character that is a command behind a backslash, and neither opens nor closes
math there. -/
structure IsSymbol (c : Char) : Prop where
  not_letter : isLetter c = false
  not_blank : isBlank c = false
  not_delimiter : c ≠ '[' ∧ c ≠ ']' ∧ c ≠ '('

mutual

/-- The node could be read in the mode, and so could those in it. -/
def Orderly : Mode → Node → Prop
  | mode, string content => IsToken mode content.toList
  | _, whitespace => True
  | mode, parbreak => mode = .text
  | _, command name args =>
    args = none ∧ (IsCommandName name.toList ∨ ∃ c, name.toList = [c] ∧ IsSymbol c)
  | _, group content => Legible .text content ∧ OrderlyAll .text content
  | mode, inlineMath content =>
    mode = .text ∧ content ≠ [] ∧ Legible .math content ∧ OrderlyAll .math content
  | _, displayMath content => Legible .math content ∧ OrderlyAll .math content
  | _, script _ base => OrderlyBase base
  | _, verb delimiter content => isLetter delimiter = false ∧
      Text.isWhiteSpace delimiter = false ∧ delimiter ∉ content.toList
  | _, verbatim content => ¬ endTag verbatimName.toList <:+: content.toList
  | _, commentEnvironment content => ¬ endTag commentName.toList <:+: content.toList
  | _, comment content _ => (∀ c ∈ content.toList, isLineBreak c = false) ∧
      ∀ c ∈ content.toList.getLast?, LatexFormatter.isSpace c = false
  | _, environment name args body => args = none ∧ IsEnvironmentName name.toList ∧
      opensArguments body = false ∧ Legible .text body ∧ OrderlyAll .text body
  | _, mathEnvironment name body =>
    IsMathName name.toList ∧ Legible .math body ∧ OrderlyAll .math body
  | _, list _ | _, arguments _ => False

def OrderlyAll : Mode → List Node → Prop
  | _, [] => True
  | mode, node :: rest => Orderly mode node ∧ OrderlyAll mode rest

/-- The base of a script is a single character, or in braces. -/
def OrderlyBase : Option Node → Prop
  | none => False
  | some base => (base.isString = true ∨ base.isGroup = true) ∧
      (∀ c ∈ base.singleChar?, isMathChar c = true) ∧ Orderly .math base

end

theorem orderlyAll_iff {mode : Mode} {items : List Node} :
    OrderlyAll mode items ↔ ∀ node ∈ items, Orderly mode node := by
  induction items with
  | nil => simp [OrderlyAll]
  | cons node rest ih => simp [OrderlyAll, ih]

theorem exists_string {node : Node} (h : node.isString = true) :
    ∃ content, node = string content := by
  cases node <;> first | exact ⟨_, rfl⟩ | simp [isString] at h

/-! ## Normalization keeps a list orderly -/

section Collapsing

variable {mode : Mode} {inBody : Bool} {before : Option Node} {run : Option Bool}
  {node : Node} {items rest : List Node}

/-- Beside a node that keeps its space, strings stay where they are, and an open run of
space comes before any of them. -/
theorem leadingText_collapseFrom (items : List Node) (hbefore : dropsSpace inBody before = false) :
    leadingText (collapseFrom inBody before run items)
      = if run = none then leadingText items else [] := by
  have hspaces : ∀ {found : List Node}, found = [] ∨ found = [whitespace] ∨ found = [parbreak] →
      leadingText found = [] := by
    rintro found (rfl | rfl | rfl) <;> rfl
  induction items generalizing before run with
  | nil =>
    rw [collapseFrom, hspaces (gap_cases ..)]
    split <;> rfl
  | cons node rest ih =>
    cases hs : node.isSpace with
    | true =>
      obtain ⟨broken, rfl⟩ := exists_spaceNode hs
      have hnone : leadingText (spaceNode broken :: rest) = [] := by cases broken <;> rfl
      rw [collapseFrom_spaceNode, ih hbefore, hnone]
      simp
    | false =>
      rw [collapseFrom_cons hs]
      cases run with
      | none =>
        cases node with
        | string content =>
          have hrest : leadingText (collapseFrom inBody (some (string content)) none rest)
              = leadingText rest := by rw [ih rfl, if_pos rfl]
          simp [gap, leadingText, hrest]
        | _ => rfl
      | some broken =>
        cases hafter : dropsSpace inBody (some node) with
        | true =>
          -- a block is no string
          have hnode : node.isString = false := by
            cases node <;> first | rfl | simp [dropsSpace, isEnvironmentLike] at hafter
          rw [gap, hafter, Bool.or_true, if_pos rfl]
          simpa using leadingText_of_head (by simpa using hnode)
        | false => cases broken <;> simp [gap, hbefore, hafter, leadingText]

/-- Behind a paragraph break or before what opens no arguments, none are opened. -/
theorem opensArguments_append_gap {after : Option Node} (items : List Node)
    (h : gap inBody before run after = [parbreak] ∨ opensArguments items = false) :
    opensArguments (gap inBody before run after ++ items) = false := by
  rcases gap_cases inBody before run after with hgap | hgap | hgap <;> rw [hgap] at h ⊢
  · exact h.resolve_left (by simp)
  · exact h.resolve_left (by simp)
  · rfl

/-- Beside a node that keeps its space, arguments are opened only if they were. -/
theorem opensArguments_collapseFrom (items : List Node)
    (hbefore : dropsSpace inBody before = false)
    (h : run = some true ∨ opensArguments items = false) :
    opensArguments (collapseFrom inBody before run items) = false := by
  induction items generalizing run with
  | nil =>
    rw [collapseFrom, ← List.append_nil (gap ..)]
    exact opensArguments_append_gap [] (Or.inr rfl)
  | cons node rest ih =>
    cases hs : node.isSpace with
    | true =>
      obtain ⟨broken, rfl⟩ := exists_spaceNode hs
      rw [collapseFrom_spaceNode]
      refine ih ?_
      cases broken with
      | true => exact Or.inl rfl
      | false =>
        rcases h with rfl | h
        · exact Or.inl rfl
        · exact Or.inr h
    | false =>
      rw [collapseFrom_cons hs]
      refine opensArguments_append_gap _ ?_
      cases node with
      | string content =>
        rcases h with rfl | h
        · have hafter : dropsSpace inBody (some (string content)) = false := rfl
          exact Or.inl (by simp [gap, hbefore, hafter])
        · exact Or.inr h
      | whitespace => cases hs
      | _ => exact Or.inr rfl

/-- The space at the start of a body is dropped. -/
theorem opensArguments_body (items : List Node) :
    opensArguments (collapseFrom true none run items)
      = opensArguments (items.dropWhile isSpace) := by
  have hgap : ∀ after, gap true none run after = [] := by
    intro after
    cases run <;> simp [gap, dropsSpace]
  induction items generalizing run with
  | nil => rw [collapseFrom, hgap]; rfl
  | cons node rest ih =>
    cases hs : node.isSpace with
    | true =>
      obtain ⟨broken, rfl⟩ := exists_spaceNode hs
      rw [collapseFrom_spaceNode, List.dropWhile_cons_of_pos hs]
      exact ih fun after => by simp [gap, dropsSpace]
    | false =>
      rw [collapseFrom_cons hs, hgap, List.dropWhile_cons_of_neg (by simp [hs])]
      cases node <;> first | rfl | cases hs

/-- In math, a node that stood apart from the next still does. -/
theorem isApart_collapseFrom (hs : node.isSpace = false)
    (h : ∀ next ∈ rest.head?, isApart node next = true) :
    ∀ next ∈ (collapseFrom inBody (some node) none rest).head?, isApart node next = true := by
  intro next hnext
  cases hspace : next.isSpace with
  | false => simp [isApart, hspace, hs]
  | true =>
    cases rest with
    | nil => simp [collapseFrom, gap] at hnext
    | cons other rest =>
      cases hother : other.isSpace with
      | true => simpa [isApart, hspace, hs, hother] using h other rfl
      | false =>
        rw [collapseFrom_cons hother] at hnext
        obtain rfl : other = next := by simpa [gap] using hnext
        rw [hspace] at hother
        cases hother

theorem legible_append_gap {after : Option Node}
    (h : run ≠ none → mode = .math → ∀ node ∈ items.head?, node.takesSpaceBefore = false)
    (hitems : Legible mode items) : Legible mode (gap inBody before run after ++ items) := by
  have hspace : ∀ space : Node, space.isSpace = true → run ≠ none →
      Legible mode (space :: items) := by
    intro space hs hrun
    refine ⟨?_, fun hmath next hnext => ?_, hitems⟩
    · rcases isSpace_iff.1 hs with rfl | rfl <;> trivial
    · have htakes : space.takesSpace = false := by
        rcases isSpace_iff.1 hs with rfl | rfl <;> rfl
      simp [isApart, htakes, h hrun hmath next hnext]
  rcases gap_cases inBody before run after with hgap | hgap | hgap <;> rw [hgap]
  · exact hitems
  · exact hspace whitespace rfl fun hrun => by simp [hrun, gap] at hgap
  · exact hspace parbreak rfl fun hrun => by simp [hrun, gap] at hgap

/-- Words and commands still end where they did, and nothing has moved up to what would
take it along. -/
theorem Legible.collapseFrom (h : Legible mode items) (inBody : Bool) (before : Option Node)
    (run : Option Bool)
    (hrun : run ≠ none → mode = .math → ∀ node ∈ items.head?, node.takesSpaceBefore = false) :
    Legible mode (collapseFrom inBody before run items) := by
  induction items generalizing before run with
  | nil =>
    rw [Node.collapseFrom, ← List.append_nil (gap ..)]
    exact legible_append_gap (by simp) h
  | cons node rest ih =>
    obtain ⟨hends, happart, hrest⟩ := h
    cases hs : node.isSpace with
    | true =>
      obtain ⟨broken, rfl⟩ := exists_spaceNode hs
      rw [collapseFrom_spaceNode]
      refine ih hrest before _ fun _ hmath next hnext => ?_
      simpa [isApart, hs] using (Bool.and_eq_true_iff.1 (happart hmath next hnext)).2
    | false =>
      rw [collapseFrom_cons hs]
      refine legible_append_gap (fun hne hmath => by simpa using hrun hne hmath) ⟨?_, ?_, ?_⟩
      · cases node with
        | string content =>
          intro htext
          rw [leadingText_collapseFrom rest rfl, if_pos rfl]
          exact hends htext
        | command name args =>
          refine ⟨opensArguments_collapseFrom rest rfl (Or.inr hends.1), ?_⟩
          rw [leadingText_collapseFrom rest rfl, if_pos rfl]
          exact hends.2
        | _ => trivial
      · exact fun hmath => isApart_collapseFrom hs (happart hmath)
      · exact ih hrest _ none (by simp)

theorem leadingText_map_normalize (items : List Node) :
    leadingText (items.map normalize) = leadingText items := by
  induction items with
  | nil => rfl
  | cons node rest ih =>
    cases node with
    | string content => exact congrArg (content.toList ++ ·) ih
    | _ => rfl

theorem opensArguments_map_normalize (items : List Node) :
    opensArguments (items.map normalize) = opensArguments items := by
  induction items with
  | nil => rfl
  | cons node rest ih =>
    cases node with
    | whitespace => exact ih
    | _ => rfl

theorem isApart_normalize (node next : Node) :
    isApart node.normalize next.normalize = isApart node next := by
  have htakes : ∀ node : Node, node.normalize.takesSpace = node.takesSpace ∧
      node.normalize.takesSpaceBefore = node.takesSpaceBefore := by
    intro node
    cases node <;> exact ⟨rfl, rfl⟩
  simp [isApart, (htakes node).1, (htakes next).2]

theorem Legible.map_normalize (h : Legible mode items) : Legible mode (items.map normalize) := by
  induction items with
  | nil => trivial
  | cons node rest ih =>
    obtain ⟨hends, happart, hrest⟩ := h
    refine ⟨?_, fun hmath next hnext => ?_, ih hrest⟩
    · cases node with
      | string content =>
        intro htext
        rw [leadingText_map_normalize]
        exact hends htext
      | command name args =>
        refine ⟨(opensArguments_map_normalize rest).trans hends.1, ?_⟩
        rw [leadingText_map_normalize]
        exact hends.2
      | _ => trivial
    · obtain ⟨other, hother, rfl⟩ : ∃ other ∈ rest.head?, other.normalize = next := by
        simpa using hnext
      rw [isApart_normalize]
      exact happart hmath other hother

/-- No paragraph break comes from nothing. -/
theorem parbreak_mem_of_collapseFrom (h : parbreak ∈ collapseFrom inBody before run items) :
    run = some true ∨ parbreak ∈ items := by
  have hgap : ∀ {before run after}, parbreak ∈ gap inBody before run after → run = some true := by
    intro before run after hmem
    rcases run with _ | _ | _
    · simp [gap] at hmem
    · simp only [gap] at hmem
      split at hmem <;> simp at hmem
    · rfl
  induction items generalizing before run with
  | nil => exact Or.inl (hgap h)
  | cons node rest ih =>
    cases hs : node.isSpace with
    | true =>
      obtain ⟨broken, rfl⟩ := exists_spaceNode hs
      rw [collapseFrom_spaceNode] at h
      cases broken with
      | true => exact Or.inr List.mem_cons_self
      | false =>
        refine (ih h).imp (fun hrun => ?_) (List.mem_cons_of_mem _)
        rcases run with _ | _ | _ <;> simp_all
    | false =>
      rw [collapseFrom_cons hs] at h
      rcases List.mem_append.1 h with h | h
      · exact Or.inl (hgap h)
      · rcases List.mem_cons.1 h with rfl | h
        · cases hs
        · exact Or.inr (List.mem_cons_of_mem _ ((ih h).resolve_left (by simp)))

/-- Where no block drops it, a run of space leaves something. -/
theorem eq_none_of_gap {after : Option Node} (hbefore : dropsSpace inBody before = false)
    (hafter : dropsSpace inBody after = false) (h : gap inBody before run after = []) :
    run = none := by
  rcases run with _ | _ | _
  · rfl
  · simp [gap, hbefore, hafter] at h
  · simp [gap, hbefore, hafter] at h

theorem eq_nil_of_collapseFrom (hbefore : dropsSpace false before = false)
    (h : collapseFrom false before run items = []) : run = none ∧ items = [] := by
  induction items generalizing run with
  | nil => exact ⟨eq_none_of_gap hbefore rfl h, rfl⟩
  | cons node rest ih =>
    cases hs : node.isSpace with
    | true =>
      obtain ⟨broken, rfl⟩ := exists_spaceNode hs
      rw [collapseFrom_spaceNode] at h
      cases (ih h).1
    | false => simp [collapseFrom_cons hs] at h

/-- What comes to a single node that is neither space nor a block was that node. -/
theorem eq_singleton_of_collapseFrom (hbefore : dropsSpace false before = false)
    (hs : node.isSpace = false) (hnode : dropsSpace false (some node) = false)
    (h : collapseFrom false before run items = [node]) : run = none ∧ items = [node] := by
  induction items generalizing run with
  | nil =>
    have hmem : node ∈ gap false before run none := by
      rw [Node.collapseFrom] at h
      simp [h]
    rcases gap_cases false before run none with hgap | hgap | hgap <;> rw [hgap] at hmem
    · simp at hmem
    · cases List.mem_singleton.1 hmem ▸ hs
    · cases List.mem_singleton.1 hmem ▸ hs
  | cons other rest ih =>
    cases hother : other.isSpace with
    | true =>
      obtain ⟨broken, rfl⟩ := exists_spaceNode hother
      rw [collapseFrom_spaceNode] at h
      cases (ih h).1
    | false =>
      rw [collapseFrom_cons hother] at h
      obtain ⟨hgap, htail⟩ : gap false before run (some other) = [] ∧
          other :: collapseFrom false (some other) none rest = [node] := by
        rcases List.append_eq_singleton_iff.1 h with hnone | ⟨-, hnil⟩
        · exact hnone
        · cases hnil
      obtain ⟨rfl, hrest⟩ := List.cons_eq_cons.1 htail
      obtain ⟨-, rfl⟩ := eq_nil_of_collapseFrom hnode hrest
      exact ⟨eq_none_of_gap hbefore hnode hgap, rfl⟩

/-- What is a single character once it is normalized was one before. -/
theorem singleChar?_of_normalize {c : Char} (h : node.normalize.singleChar? = some c) :
    node.singleChar? = some c := by
  have hstring : ∀ {other : Node} {content : String}, other.normalize = string content →
      other = string content := by
    intro other content heq
    cases other <;> first | exact heq | cases heq
  obtain ⟨content, hcontent, hnode | hnode⟩ := singleChar?_cases h
  · rw [hnode] at h
    rw [hstring hnode]
    exact h
  · rw [hnode] at h
    cases node with
    | group items =>
      rw [normalize_group] at hnode
      obtain ⟨-, hitems⟩ := eq_singleton_of_collapseFrom rfl rfl rfl (Node.group.inj hnode)
      obtain ⟨other, rfl, hother⟩ := List.map_eq_singleton_iff.1 hitems
      rw [hstring hother]
      exact h
    | _ => cases hnode

/-- A legible list of nodes that become orderly becomes an orderly list. -/
theorem orderly_collapse (hlegible : Legible mode items)
    (horderly : ∀ node ∈ items, Orderly mode node.normalize) :
    Legible mode (collapse inBody (items.map normalize)) ∧
      OrderlyAll mode (collapse inBody (items.map normalize)) := by
  refine ⟨hlegible.map_normalize.collapseFrom inBody none none (by simp), orderlyAll_iff.2 ?_⟩
  have hmap : ∀ node ∈ items.map normalize, Orderly mode node := by
    intro node hnode
    obtain ⟨other, hother, rfl⟩ := List.mem_map.1 hnode
    exact horderly other hother
  intro node hnode
  rcases mem_collapseFrom hnode with hmem | rfl | rfl
  · exact hmap node hmem
  · trivial
  · exact hmap parbreak ((parbreak_mem_of_collapseFrom hnode).resolve_left (by simp))

end Collapsing

end LatexFormatter.Node
