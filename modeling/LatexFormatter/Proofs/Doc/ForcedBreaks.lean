import LatexFormatter.Proofs.Doc.WithinWidth

/-
  Passing on forced breaks. Marking goes through a document once and comes back with
  what each part forces, while it rewrites the part; so what it does to a document is
  said part by part. `ForcesBreak` says what it is to force a break, of a document as
  it stands; `inner` are the parts of a document, further states included, and
  `nested?` the documents at any depth.

  Marking reaches every nested document, marks exactly the groups that had to be
  marked, changes nothing else, and has nothing left to do the second time
  (`propagateBreaks_marks_forced`).
-/

namespace LatexFormatter.Doc

/-! ## Parts of a document -/

/-- The documents right inside a document, the further states of a group after its
contents. -/
def inner : Doc → List Doc
  | concat parts => parts
  | fill parts => parts
  | group contents _ none => [contents]
  | group contents _ (some states) => contents :: states
  | indent contents => [contents]
  | align _ contents => [contents]
  | ifBreak broken flat => [broken, flat]
  | lineSuffix contents => [contents]
  | _ => []

/-- The document found by going inside again and again. -/
def nested? : List Nat → Doc → Option Doc
  | [], doc => some doc
  | index :: path, doc => (inner doc)[index]?.bind (nested? path)

theorem costAll_inner (doc : Doc) : costAll (inner doc) < doc.cost := by
  cases doc with
  | group contents broken states =>
    cases states <;> simp only [inner, costAll, cost, costStates] <;> omega
  | text | concat | fill | indent | align | line | ifBreak | lineSuffix | lineSuffixBoundary
  | breakParent | trim | cursor =>
    simp only [inner, costAll, cost]
    omega

/-- What holds of a document if it holds of its parts holds of all documents. -/
theorem inner_induction {motive : Doc → Prop}
    (h : ∀ doc, (∀ part ∈ inner doc, motive part) → motive doc) (doc : Doc) : motive doc := by
  induction hcost : doc.cost using Nat.strongRecOn generalizing doc with
  | ind n ih =>
    apply h
    intro part hpart
    have hle := cost_le_costAll hpart
    have hlt := costAll_inner doc
    exact ih part.cost (by omega) part rfl

/-! ## What forces a break -/

/-- The document forces what is around it to break. A group does so only if it is
itself to be broken, whatever it holds. -/
inductive ForcesBreak : Doc → Prop
  | breakParent : ForcesBreak breakParent
  | group {contents : Doc} {states : Option (List Doc)} : ForcesBreak (group contents true states)
  | concat {parts : List Doc} {part : Doc} (hpart : part ∈ parts) (h : ForcesBreak part) :
      ForcesBreak (concat parts)
  | fill {parts : List Doc} {part : Doc} (hpart : part ∈ parts) (h : ForcesBreak part) :
      ForcesBreak (fill parts)
  | indent {contents : Doc} (h : ForcesBreak contents) : ForcesBreak (indent contents)
  | align {alignment : Alignment} {contents : Doc} (h : ForcesBreak contents) :
      ForcesBreak (align alignment contents)
  | lineSuffix {contents : Doc} (h : ForcesBreak contents) : ForcesBreak (lineSuffix contents)
  | whenBroken {broken flat : Doc} (h : ForcesBreak broken) : ForcesBreak (ifBreak broken flat)
  | whenFlat {broken flat : Doc} (h : ForcesBreak flat) : ForcesBreak (ifBreak broken flat)

section

variable {contents broken flat : Doc} {parts : List Doc}

theorem forcesBreak_group {marked : Bool} {states : Option (List Doc)} :
    ForcesBreak (group contents marked states) ↔ marked = true :=
  ⟨fun h => by cases h; rfl, fun h => by rw [h]; exact .group⟩

theorem forcesBreak_concat : ForcesBreak (concat parts) ↔ ∃ part ∈ parts, ForcesBreak part :=
  ⟨fun h => by cases h with | concat hpart h => exact ⟨_, hpart, h⟩,
    fun ⟨_, hpart, h⟩ => .concat hpart h⟩

theorem forcesBreak_fill : ForcesBreak (fill parts) ↔ ∃ part ∈ parts, ForcesBreak part :=
  ⟨fun h => by cases h with | fill hpart h => exact ⟨_, hpart, h⟩,
    fun ⟨_, hpart, h⟩ => .fill hpart h⟩

theorem forcesBreak_indent : ForcesBreak (indent contents) ↔ ForcesBreak contents :=
  ⟨fun h => by cases h; assumption, .indent⟩

theorem forcesBreak_align {alignment : Alignment} :
    ForcesBreak (align alignment contents) ↔ ForcesBreak contents :=
  ⟨fun h => by cases h; assumption, .align⟩

theorem forcesBreak_lineSuffix : ForcesBreak (lineSuffix contents) ↔ ForcesBreak contents :=
  ⟨fun h => by cases h; assumption, .lineSuffix⟩

theorem forcesBreak_ifBreak :
    ForcesBreak (ifBreak broken flat) ↔ ForcesBreak broken ∨ ForcesBreak flat := by
  constructor
  · intro h
    cases h with
    | whenBroken h => exact Or.inl h
    | whenFlat h => exact Or.inr h
  · intro h
    cases h with
    | inl h => exact .whenBroken h
    | inr h => exact .whenFlat h

end

/-! ## What marking does -/

mutual

/-- The document with no group marked. -/
def unmarked : Doc → Doc
  | concat parts => concat (unmarkedAll parts)
  | fill parts => fill (unmarkedAll parts)
  | group contents _ none => group (unmarked contents) false none
  | group contents _ (some states) => group (unmarked contents) false (some (unmarkedAll states))
  | indent contents => indent (unmarked contents)
  | align alignment contents => align alignment (unmarked contents)
  | ifBreak broken flat => ifBreak (unmarked broken) (unmarked flat)
  | lineSuffix contents => lineSuffix (unmarked contents)
  | text content => text content
  | line hard soft literal => line hard soft literal
  | lineSuffixBoundary => lineSuffixBoundary
  | breakParent => breakParent
  | trim => trim
  | cursor => cursor

/-- Several documents with no group marked. -/
def unmarkedAll : List Doc → List Doc
  | [] => []
  | doc :: rest => unmarked doc :: unmarkedAll rest

end

theorem unmarkedAll_eq (docs : List Doc) : unmarkedAll docs = docs.map unmarked := by
  induction docs with
  | nil => rfl
  | cons doc rest ih => rw [unmarkedAll, ih, List.map_cons]

/-- Marking a document marks each of its parts. -/
theorem inner_propagateBreaks (doc : Doc) :
    inner (propagateBreaks doc).1 = (inner doc).map fun part => (propagateBreaks part).1 := by
  cases doc with
  | concat parts => simp only [propagateBreaks, inner, propagateAll_eq]
  | fill parts => simp only [propagateBreaks, inner, propagateAll_eq]
  | group contents broken states =>
    cases states with
    | none => rfl
    | some states => simp only [propagateBreaks, inner, propagateAll_eq, List.map_cons]
  | text | indent | align | line | ifBreak | lineSuffix | lineSuffixBoundary | breakParent | trim
  | cursor => rfl

/-- Every nested document is marked. -/
theorem nested?_propagateBreaks (path : List Nat) (doc : Doc) :
    nested? path (propagateBreaks doc).1
      = (nested? path doc).map fun part => (propagateBreaks part).1 := by
  induction path generalizing doc with
  | nil => rfl
  | cons index path ih =>
    simp only [nested?, inner_propagateBreaks, List.getElem?_map]
    cases (inner doc)[index]? with
    | none => rfl
    | some part => exact ih part

/-- Several documents force a break if one of them does. -/
theorem propagateAll_forces {docs : List Doc}
    (h : ∀ doc ∈ docs, ((propagateBreaks doc).2 = true ↔ ForcesBreak (propagateBreaks doc).1)) :
    (propagateAll docs).2 = true ↔ ∃ doc ∈ (propagateAll docs).1, ForcesBreak doc := by
  simp only [propagateAll_eq, List.any_eq_true, List.mem_map]
  constructor
  · intro ⟨doc, hdoc, hforced⟩
    exact ⟨_, ⟨doc, hdoc, rfl⟩, (h doc hdoc).1 hforced⟩
  · intro ⟨_, ⟨doc, hdoc, heq⟩, hforces⟩
    subst heq
    exact ⟨doc, hdoc, (h doc hdoc).2 hforces⟩

/-- Marking tells whether the document, as it is marked, forces a break. -/
theorem propagateBreaks_forces (doc : Doc) :
    (propagateBreaks doc).2 = true ↔ ForcesBreak (propagateBreaks doc).1 := by
  induction doc using inner_induction with
  | h doc ih =>
    cases doc with
    | concat parts => exact (propagateAll_forces ih).trans forcesBreak_concat.symm
    | fill parts => exact (propagateAll_forces ih).trans forcesBreak_fill.symm
    | group contents broken states =>
      cases states with
      | none => exact forcesBreak_group.symm
      | some states => exact forcesBreak_group.symm
    | indent contents =>
      exact (ih contents (List.mem_singleton.2 rfl)).trans forcesBreak_indent.symm
    | align alignment contents =>
      exact (ih contents (List.mem_singleton.2 rfl)).trans forcesBreak_align.symm
    | lineSuffix contents =>
      exact (ih contents (List.mem_singleton.2 rfl)).trans forcesBreak_lineSuffix.symm
    | ifBreak broken flat =>
      have hbroken := ih broken (by simp [inner])
      have hflat := ih flat (by simp [inner])
      show ((propagateBreaks broken).2 || (propagateBreaks flat).2) = true
        ↔ ForcesBreak (ifBreak (propagateBreaks broken).1 (propagateBreaks flat).1)
      rw [Bool.or_eq_true, hbroken, hflat, forcesBreak_ifBreak]
    | breakParent => exact ⟨fun _ => .breakParent, fun _ => rfl⟩
    | text | line | lineSuffixBoundary | trim | cursor =>
      constructor
      · intro h
        cases h
      · intro h
        cases h

theorem unmarkedAll_propagateAll {docs : List Doc}
    (h : ∀ doc ∈ docs, unmarked (propagateBreaks doc).1 = unmarked doc) :
    unmarkedAll (propagateAll docs).1 = unmarkedAll docs := by
  rw [unmarkedAll_eq, unmarkedAll_eq, propagateAll_eq, List.map_map]
  apply List.map_congr_left
  exact h

/-- Marking changes nothing but marks. -/
theorem unmarked_propagateBreaks (doc : Doc) : unmarked (propagateBreaks doc).1 = unmarked doc := by
  induction doc using inner_induction with
  | h doc ih =>
    cases doc with
    | concat parts => exact congrArg Doc.concat (unmarkedAll_propagateAll ih)
    | fill parts => exact congrArg Doc.fill (unmarkedAll_propagateAll ih)
    | group contents broken states =>
      cases states with
      | none => exact congrArg (Doc.group · false none) (ih contents (List.mem_singleton.2 rfl))
      | some states =>
        obtain ⟨hcontents, hstates⟩ := List.forall_mem_cons.1 ih
        simp only [propagateBreaks, unmarked, hcontents, unmarkedAll_propagateAll hstates]
    | indent contents => exact congrArg Doc.indent (ih contents (List.mem_singleton.2 rfl))
    | align alignment contents =>
      exact congrArg (Doc.align alignment) (ih contents (List.mem_singleton.2 rfl))
    | lineSuffix contents => exact congrArg Doc.lineSuffix (ih contents (List.mem_singleton.2 rfl))
    | ifBreak broken flat =>
      have hbroken := ih broken (by simp [inner])
      have hflat := ih flat (by simp [inner])
      simp only [propagateBreaks, unmarked, hbroken, hflat]
    | text | line | lineSuffixBoundary | breakParent | trim | cursor => rfl

theorem propagateAll_propagateAll {docs : List Doc}
    (h : ∀ doc ∈ docs, propagateBreaks (propagateBreaks doc).1 = propagateBreaks doc) :
    propagateAll (propagateAll docs).1 = propagateAll docs := by
  induction docs with
  | nil => rfl
  | cons doc rest ih =>
    obtain ⟨hdoc, hrest⟩ := List.forall_mem_cons.1 h
    simp only [propagateAll, hdoc, ih hrest]

/-- What has been marked stays as it is. -/
theorem propagateBreaks_propagateBreaks (doc : Doc) :
    propagateBreaks (propagateBreaks doc).1 = propagateBreaks doc := by
  induction doc using inner_induction with
  | h doc ih =>
    cases doc with
    | concat parts =>
      have hparts := propagateAll_propagateAll ih
      simp only [propagateBreaks, inner] at hparts ⊢
      rw [hparts]
    | fill parts =>
      have hparts := propagateAll_propagateAll ih
      simp only [propagateBreaks, inner] at hparts ⊢
      rw [hparts]
    | group contents broken states =>
      cases states with
      | none =>
        have hcontents := ih contents (List.mem_singleton.2 rfl)
        simp only [propagateBreaks, hcontents, Bool.or_assoc, Bool.or_self]
      | some states =>
        obtain ⟨hcontents, hstates⟩ := List.forall_mem_cons.1 ih
        simp only [propagateBreaks, hcontents, propagateAll_propagateAll hstates]
    | indent contents =>
      have hcontents := ih contents (List.mem_singleton.2 rfl)
      simp only [propagateBreaks, hcontents]
    | align alignment contents =>
      have hcontents := ih contents (List.mem_singleton.2 rfl)
      simp only [propagateBreaks, hcontents]
    | lineSuffix contents =>
      have hcontents := ih contents (List.mem_singleton.2 rfl)
      simp only [propagateBreaks, hcontents]
    | ifBreak broken flat =>
      have hbroken := ih broken (by simp [inner])
      have hflat := ih flat (by simp [inner])
      simp only [propagateBreaks, hbroken, hflat]
    | text | line | lineSuffixBoundary | breakParent | trim | cursor => rfl

/-- **Marking finds exactly the forced breaks.** Every nested document comes out as
marking it by itself leaves it. A group without further states is marked if it was
before or its contents, as they come out, force a break; one with further states is
marked if it was. What marking tells of the document is whether it forces a break;
apart from marks the document is the same, and marking it again changes nothing. -/
theorem propagateBreaks_marks_forced (doc : Doc) :
    let marked := (propagateBreaks doc).1
    (∀ path, nested? path marked = (nested? path doc).map fun part => (propagateBreaks part).1) ∧
    (∀ path contents broken, nested? path doc = some (group contents broken none) →
      ∃ contents' broken', nested? path marked = some (group contents' broken' none) ∧
        (broken' = true ↔ broken = true ∨ ForcesBreak contents')) ∧
    (∀ path contents broken states, nested? path doc = some (group contents broken (some states)) →
      ∃ contents' states', nested? path marked = some (group contents' broken (some states'))) ∧
    ((propagateBreaks doc).2 = true ↔ ForcesBreak marked) ∧
    unmarked marked = unmarked doc ∧
    propagateBreaks marked = propagateBreaks doc := by
  intro marked
  have hnested : ∀ path, nested? path marked
      = (nested? path doc).map fun part => (propagateBreaks part).1 :=
    fun path => nested?_propagateBreaks path doc
  refine ⟨hnested, ?_, ?_, propagateBreaks_forces doc, unmarked_propagateBreaks doc,
    propagateBreaks_propagateBreaks doc⟩
  · intro path contents broken hgroup
    refine ⟨(propagateBreaks contents).1, broken || (propagateBreaks contents).2, ?_, ?_⟩
    · rw [hnested, hgroup]
      rfl
    · rw [Bool.or_eq_true, propagateBreaks_forces]
  · intro path contents broken states hgroup
    refine ⟨(propagateBreaks contents).1, (propagateAll states).1, ?_⟩
    rw [hnested, hgroup]
    rfl

-- a group inside a further state is marked, the group with the states is not
example : propagateBreaks (group (text "a") false (some [group hardline false none]))
    = (group (text "a") false (some [group hardline true none]), false) := rfl

end LatexFormatter.Doc
