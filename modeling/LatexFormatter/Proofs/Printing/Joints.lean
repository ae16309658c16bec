import LatexFormatter.Proofs.Grammar.Spelling
import LatexFormatter.Proofs.Printing.Idle

/-
  What stands between two solid texts of a printed list: a run of space, which may
  be absent, and then the directive of the node that comes next or of what closes
  the list (`Joint`). The blanks that are printed there are read as another run of
  space, or some of them belong to a comment or to a notation of math (`Taken`).
  Normalization leaves of that run what comes to the same where it stands
  (`alike_gap`), and at places where lines are broken only for the sake of a block,
  the very run that was printed (`gap_eq_runNodes`).
-/

namespace LatexFormatter

open Node

/-! ## Reading blanks -/

/-- The run of space that blanks are read as: absent, or whether it holds a paragraph
break. -/
def runOf (mode : Mode) (blanks : List Char) : Option Bool :=
  if blanks = [] then none else some (decide (mode = .text ∧ 2 ≤ countLineEndings blanks))

@[simp] theorem runOf_nil (mode : Mode) : runOf mode [] = none := rfl

theorem runOf_of_ne_nil {mode : Mode} {blanks : List Char} (h : blanks ≠ []) :
    runOf mode blanks = some (decide (mode = .text ∧ 2 ≤ countLineEndings blanks)) := if_neg h

theorem normalize_spaceNode (broken : Bool) : (spaceNode broken).normalize = spaceNode broken := by
  cases broken <;> rfl

section Spaces

variable {fresh : Bool} {raw : List Node} {blanks text : List Char}

/-- In running text, blanks are read as one space node. -/
theorem exists_spaces_text (hb : ∀ c ∈ blanks, isBlank c = true)
    (ht : ∀ c ∈ text.head?, isBlank c = false)
    (hcomment : text.head? = some '%' →
      blanks = [] ∨ IsLines blanks ∨ fresh = false ∧ ∀ c ∈ blanks, LatexFormatter.isSpace c = true)
    (h : Spelled .text (freshAfterAll fresh blanks) raw text) :
    ∃ raw', Spelled .text fresh raw' (blanks ++ text) ∧ ∀ inBody before,
      collapseFrom inBody before none (raw'.map normalize)
        = collapseFrom inBody before (runOf .text blanks) (raw.map normalize) := by
  by_cases hne : blanks = []
  · subst hne
    exact ⟨raw, h, fun _ _ => rfl⟩
  · refine ⟨spaceOf blanks :: raw,
      .space hne hb ht (fun hc => (hcomment hc).resolve_left hne) h, fun inBody before => ?_⟩
    rw [List.map_cons, spaceOf, normalize_spaceNode, collapseFrom_spaceNode, runOf_of_ne_nil hne]
    simp

/-- In math, they are read as stretches of white space. -/
theorem exists_stretches (hne : blanks ≠ []) (hb : ∀ c ∈ blanks, isBlank c = true)
    (ht : ∀ c ∈ text.head?, isBlank c = false) (htakes : ∀ c ∈ text.head?, takesBlanks c = false)
    (hcomment : text.head? = some '%' →
      fresh = false ∧ ∀ c ∈ blanks, LatexFormatter.isSpace c = true)
    (h : Spelled .math (freshAfterAll fresh blanks) raw text) :
    ∃ raw', Spelled .math fresh raw' (blanks ++ text) ∧ ∀ inBody before run,
      collapseFrom inBody before run (raw'.map normalize)
        = collapseFrom inBody before (some (run.getD false)) (raw.map normalize) := by
  induction hn : blanks.length using Nat.strong_induction_on generalizing fresh blanks with
  | _ n ih =>
    -- the first stretch, and the blanks behind it
    have hpos : 0 < whitespaceLength blanks := by
      obtain ⟨b, bs, rfl⟩ := List.exists_cons_of_ne_nil hne
      exact whitespaceLength_pos (hb b (by simp))
    have hle := whitespaceLength_le blanks
    obtain ⟨first, rest, rfl, hfirst⟩ : ∃ first rest, blanks = first ++ rest ∧
        first.length = whitespaceLength blanks :=
      ⟨_, _, (List.take_append_drop (whitespaceLength blanks) blanks).symm, by simpa using hle⟩
    have hrestblank : ∀ c ∈ rest, isBlank c = true := fun c hc => hb c (by simp [hc])
    have hdrop : (rest ++ text).dropWhile isBlank = text := by
      rw [List.dropWhile_append_of_pos hrestblank, dropWhile_of_head ht]
    have hstretch : whitespaceLength (first ++ (rest ++ text)) = first.length := by
      rw [← List.append_assoc, whitespaceLength_append_of_head _ ht, hfirst]
    -- spaces before a comment are one stretch
    have hone : text.head? = some '%' → rest = [] := by
      intro hpercent
      have hspaces := (hcomment hpercent).2
      have hcount : countLineEndings (first ++ rest) = 0 := by
        simpa [countLineEndings] using countLineEndings_spaces_append [] hspaces
      have hall := whitespaceLength_append hb ht (by omega)
      rw [whitespaceLength_append_of_head _ ht, ← hfirst, List.length_append] at hall
      exact List.length_eq_zero_iff.1 (by omega)
    have hspelled : ∀ {more}, Spelled .math (freshAfterAll fresh first) more (rest ++ text) →
        Spelled .math fresh (.whitespace :: more) (first ++ (rest ++ text)) := by
      refine fun h => .stretch (List.ne_nil_of_length_pos (by omega))
        (fun c hc => hb c (by simp [hc]))
        hstretch (by rwa [hdrop]) ?_ h
      rw [hdrop]
      intro hpercent
      obtain rfl := hone hpercent
      exact ⟨hpercent, by simpa using hcomment hpercent⟩
    rw [freshAfterAll_append] at h
    rw [List.append_assoc]
    by_cases hlast : rest = []
    · subst hlast
      exact ⟨.whitespace :: raw, hspelled h, fun _ _ _ => rfl⟩
    · obtain ⟨more, hmore, hcollapse⟩ := ih rest.length
        (by rw [← hn, List.length_append]; omega) hlast hrestblank
        (fun hpercent => absurd (hone hpercent) hlast) h rfl
      refine ⟨.whitespace :: more, hspelled hmore, fun inBody before run => ?_⟩
      exact hcollapse inBody before (some (run.getD false))

/-- Blanks that nothing takes along are read as space. -/
theorem exists_spaces {mode : Mode} (hmode : mode ≠ .arguments)
    (hb : ∀ c ∈ blanks, isBlank c = true) (ht : ∀ c ∈ text.head?, isBlank c = false)
    (htakes : mode = .math → ∀ c ∈ text.head?, takesBlanks c = false)
    (hcomment : text.head? = some '%' → blanks = [] ∨ mode = .text ∧ IsLines blanks ∨
      fresh = false ∧ ∀ c ∈ blanks, LatexFormatter.isSpace c = true)
    (h : Spelled mode (freshAfterAll fresh blanks) raw text) :
    ∃ raw', Spelled mode fresh raw' (blanks ++ text) ∧ ∀ inBody before,
      collapseFrom inBody before none (raw'.map normalize)
        = collapseFrom inBody before (runOf mode blanks) (raw.map normalize) := by
  cases mode with
  | arguments => exact absurd rfl hmode
  | text => exact exists_spaces_text hb ht (by simpa using hcomment) h
  | math =>
    by_cases hne : blanks = []
    · subst hne
      exact ⟨raw, h, fun _ _ => rfl⟩
    · obtain ⟨raw', hspelled, hcollapse⟩ := exists_stretches hne hb ht (htakes rfl)
        (fun hc => by simpa [hne] using hcomment hc) h
      refine ⟨raw', hspelled, fun inBody before => ?_⟩
      rw [hcollapse, runOf_of_ne_nil hne]
      simp

end Spaces

/-! ## Enclosures -/

/-- What a list stands in: the mode it is read in, and whether it is the body of an
environment and closed on a line of its own. -/
structure Enclosure where
  mode : Mode
  inBody : Bool
  ownLine : Bool
  readable : mode ≠ .arguments
  /-- Text that is closed on a line of its own is a body, so no space is left before the
  closing. -/
  body_of_text : ownLine = true → mode = .text → inBody = true

namespace Enclosure

/-- The whole document, and what stands in braces. -/
def braces : Enclosure := ⟨.text, false, false, by decide, by decide⟩

def formula : Enclosure := ⟨.math, false, false, by decide, by decide⟩

def display : Enclosure := ⟨.math, false, true, by decide, by decide⟩

def body : Enclosure := ⟨.text, true, true, by decide, by decide⟩

def mathBody : Enclosure := ⟨.math, true, true, by decide, by decide⟩

/-- The directives before the closing. -/
def close (enclosure : Enclosure) : List Token :=
  if enclosure.ownLine then [.endIndent, .newline] else []

end Enclosure

/-! ## Directives -/

/-- What a node asks for before its first text. -/
def directive : Node → List Token
  | .command name _ => Token.beforeCommand name
  | .environment _ _ _ | .mathEnvironment _ _ | .displayMath _ | .verbatim _
  | .commentEnvironment _ => [.ensureNewline]
  | .comment _ sameline => if sameline then [] else [.ensureNewline]
  | _ => []

theorem ofNode_eq_directive (node : Node) :
    ∃ core, Token.ofNode node = directive node ++ core := by
  cases node with
  | comment | command | environment | mathEnvironment | displayMath | verbatim
  | commentEnvironment => exact ⟨_, by simp [directive, Token.ofNode]; rfl⟩
  | _ => exact ⟨_, rfl⟩

theorem directive_cases (node : Node) :
    directive node = [] ∨ directive node = [.ensureNewline] ∨
      directive node = [.preferParagraph] := by
  cases node with
  | command name =>
    simp only [directive, Token.beforeCommand]
    split
    · simp
    · split <;> simp
  | comment content sameline => cases sameline <;> simp [directive]
  | _ => simp [directive]

/-- The lead behind a node. -/
def leadAfter : Node → Lead
  | .comment _ _ | .commentEnvironment _ => .line
  | _ => .tight

/-! ## Joints -/

/-- A place in a list: the lead there, a run of space, and the directives before what
comes next. Space is dropped beside blocks, so there is none. -/
structure Joint (enclosure : Enclosure) (lead : Lead) (run : Option Bool) (next : List Token)
    (dropsBefore dropsAfter : Bool) : Prop where
  lead_cases : lead = .start ∨ lead = .tight ∨ lead = .line
  next_cases : next = [] ∨ next = [.ensureNewline] ∨ next = [.preferParagraph] ∨
    next = [.endIndent, .newline] ∧ (enclosure.mode = .text → dropsAfter = true)
  before : dropsBefore = true → run = none
  after : dropsAfter = true → run = none
  math : enclosure.mode = .math → run ≠ some true

/-- Of the blanks at a joint, the first are read along with what comes before: the line
ending with a comment, and all of them with a notation of math, unless space follows it
in the list. -/
def Taken (enclosure : Enclosure) (lead : Lead) (spaced dropsBefore : Bool)
    (taken left : List Char) : Prop :=
  taken = [] ∨
    (lead = .line ∧ taken = ['\n'] ∧ (dropsBefore = true ∨ IsLine (taken ++ left))) ∨
      enclosure.mode = .math ∧ spaced = false ∧ left = []

/-- The lead that is open at a joint. -/
abbrev leadAt (lead : Lead) (run : Option Bool) (next : List Token) : Lead :=
  lead.afterAll (Token.ofNodes (runNodes run) ++ next)

section Joints

variable {enclosure : Enclosure} {lead : Lead} {run : Option Bool} {next : List Token}
  {solid blanks taken left : List Char} {before after : Option Node}

/-- At the start, space comes to nothing. -/
theorem alike_of_start (run : Option Bool) {found : List Node}
    (hfound : found = [] ∨ found = [.whitespace] ∨ found = [.parbreak]) :
    Alike .start .start (Token.ofNodes (runNodes run) ++ next) (Token.ofNodes found ++ next) := by
  have hnone : ∀ nodes : List Node, nodes = [] ∨ nodes = [.whitespace] ∨ nodes = [.parbreak] →
      Alike .start .start (Token.ofNodes nodes) [] := by
    rintro nodes (rfl | rfl | rfl) <;> exact ⟨rfl, rfl⟩
  have hrun : runNodes run = [] ∨ runNodes run = [.whitespace] ∨ runNodes run = [.parbreak] := by
    rcases run with _ | _ | _ <;> simp [spaceNode]
  obtain ⟨heffects, hafter⟩ := hnone _ hrun
  obtain ⟨heffects', hafter'⟩ := hnone _ hfound
  exact (Alike.before ⟨heffects.trans heffects'.symm, hafter.trans hafter'.symm⟩ next)

/-- Behind a text, or at the start of a line, a space comes to nothing if a line is
started anyway. -/
theorem alike_of_line (hlead : lead = .tight ∨ lead = .line) (hrun : run ≠ some true)
    (hnext : lead = .tight → next ≠ []) {found : List Node}
    (hcases : next = [] ∨ next = [.ensureNewline] ∨ next = [.preferParagraph] ∨
      next = [.endIndent, .newline])
    (hfound : found = [] ∨ found = [.whitespace]) :
    Alike lead lead (Token.ofNodes (runNodes run) ++ next) (Token.ofNodes found ++ next) := by
  have hspaces : runNodes run = [] ∨ runNodes run = [.whitespace] := by
    rcases run with _ | _ | _ <;> simp_all [spaceNode]
  rcases hspaces with hspaces | hspaces <;> rcases hfound with rfl | rfl <;> rw [hspaces] <;>
    rcases hlead with rfl | rfl <;> rcases hcases with rfl | rfl | rfl | rfl <;>
    first | exact ⟨rfl, rfl⟩ | exact absurd rfl (hnext rfl)

theorem countLineEndings_of_isSpace {blanks : List Char}
    (h : ∀ c ∈ blanks, LatexFormatter.isSpace c = true) : countLineEndings blanks = 0 := by
  simpa [countLineEndings] using countLineEndings_spaces_append [] h

/-- A paragraph break leaves lines. -/
theorem Joint.isLines {dropsBefore dropsAfter : Bool}
    (h : Joint enclosure lead (some true) next dropsBefore dropsAfter) (hlead : lead ≠ .start)
    (hf : (leadAt lead (some true) next).Fits solid blanks) : IsLines blanks := by
  rcases h.lead_cases with rfl | rfl | rfl
  · exact absurd rfl hlead
  all_goals rcases h.next_cases with rfl | rfl | rfl | ⟨rfl, -⟩ <;> exact hf

theorem Joint.text_of_break {dropsBefore dropsAfter : Bool}
    (h : Joint enclosure lead (some true) next dropsBefore dropsAfter) :
    enclosure.mode = .text := by
  cases hmode : enclosure.mode with
  | text => rfl
  | math => exact absurd rfl (h.math hmode)
  | arguments => exact absurd hmode enclosure.readable

/-- Where space stands it is not dropped. -/
theorem Joint.keeps {broken dropsBefore dropsAfter : Bool}
    (h : Joint enclosure lead (some broken) next dropsBefore dropsAfter) :
    dropsBefore = false ∧ dropsAfter = false :=
  ⟨by simpa using mt h.before, by simpa using mt h.after⟩

/-- Lines are read as the paragraph break that they were printed for. -/
theorem Joint.gap_of_break
    (h : Joint enclosure lead (some true) next (dropsSpace enclosure.inBody before)
      (dropsSpace enclosure.inBody after)) (hlines : IsLines blanks) :
    gap enclosure.inBody before (runOf enclosure.mode blanks) after = runNodes (some true) := by
  have hne : blanks ≠ [] := by
    obtain ⟨more, rfl, -⟩ := hlines
    simp
  simp [gap, runOf_of_ne_nil hne, h.text_of_break, hlines.two_le_countLineEndings, h.keeps.1,
    h.keeps.2, spaceNode]

/-- Blanks with one line ending at most are read as no paragraph break, and neither is
anything in math. -/
theorem gap_of_countLineEndings (h : enclosure.mode = .text → countLineEndings blanks < 2) :
    gap enclosure.inBody before (runOf enclosure.mode blanks) after = [] ∨
      gap enclosure.inBody before (runOf enclosure.mode blanks) after = [.whitespace] := by
  have hrun : runOf enclosure.mode blanks ≠ some true := by
    unfold runOf
    split
    · simp
    · simpa using h
  rcases gap_cases enclosure.inBody before (runOf enclosure.mode blanks) after with hg | hg | hg
  · exact Or.inl hg
  · exact Or.inr hg
  · exfalso
    generalize runOf enclosure.mode blanks = run at hrun hg
    rcases run with _ | _ | _
    · simp [gap] at hg
    · simp only [gap] at hg
      split at hg <;> simp at hg
    · exact hrun rfl

/-- Text behind text, with no directive between. -/
theorem Joint.gap_of_tight
    (h : Joint enclosure .tight run [] (dropsSpace enclosure.inBody before)
      (dropsSpace enclosure.inBody after))
    (hf : (leadAt .tight run []).Fits solid blanks) :
    gap enclosure.inBody before (runOf enclosure.mode blanks) after = runNodes run := by
  rcases run with _ | _ | _
  · obtain rfl : blanks = [] := hf
    rfl
  · have hone : blanks ≠ [] ∧ ¬ 2 ≤ countLineEndings blanks := by
      rcases hf with rfl | ⟨-, hline⟩
      · simp [countLineEndings]
      · refine ⟨?_, by rw [hline.countLineEndings]; decide⟩
        obtain ⟨margin, rfl, -⟩ := hline
        simp
    simp [gap, runOf_of_ne_nil hone.1, hone.2, h.keeps.1, h.keeps.2, spaceNode]
  · exact h.gap_of_break hf

/-- What all the blanks at a joint are read as comes to the same there. -/
theorem Joint.alike_of_all
    (h : Joint enclosure lead run next (dropsSpace enclosure.inBody before)
      (dropsSpace enclosure.inBody after))
    (hf : (leadAt lead run next).Fits solid blanks) :
    Alike lead lead (Token.ofNodes (runNodes run) ++ next)
      (Token.ofNodes (gap enclosure.inBody before (runOf enclosure.mode blanks) after)
        ++ next) := by
  by_cases hstart : lead = .start
  · subst hstart
    exact alike_of_start run (gap_cases ..)
  have hlead : lead = .tight ∨ lead = .line := h.lead_cases.resolve_left hstart
  by_cases hrun : run = some true
  · subst hrun
    rw [h.gap_of_break (h.isLines hstart hf)]
    exact .rfl
  by_cases htight : lead = .tight ∧ next = []
  · obtain ⟨rfl, rfl⟩ := htight
    rw [h.gap_of_tight hf]
    exact .rfl
  have hcases : next = [] ∨ next = [.ensureNewline] ∨ next = [.preferParagraph] ∨
      next = [.endIndent, .newline] := by
    rcases h.next_cases with hnext | hnext | hnext | ⟨hnext, -⟩ <;> simp [hnext]
  by_cases hcount : countLineEndings blanks < 2
  · exact alike_of_line hlead hrun (fun hl hn => htight ⟨hl, hn⟩) hcases
      (gap_of_countLineEndings fun _ => hcount)
  -- several line endings stand there only for a paragraph, or before what closes math
  have hnot : ¬ IsLine blanks := fun hline => hcount (by rw [hline.countLineEndings]; decide)
  have hspaces : runNodes run = [] ∨ runNodes run = [.whitespace] := by
    rcases run with _ | _ | _ <;> simp_all [spaceNode]
  have hprefer : lead = .tight → next = [.preferParagraph] → Alike lead lead
      (Token.ofNodes (runNodes run) ++ next)
      (Token.ofNodes (gap enclosure.inBody before (runOf enclosure.mode blanks) after)
        ++ next) := by
    rintro rfl rfl
    rcases hspaces with hspaces | hspaces <;>
      rcases gap_cases enclosure.inBody before (runOf enclosure.mode blanks) after with
        hg | hg | hg <;>
      rw [hspaces, hg] <;> exact ⟨rfl, rfl⟩
  have hclosing : next = [.endIndent, .newline] →
      (enclosure.mode = .text → dropsSpace enclosure.inBody after = true) → Alike lead lead
      (Token.ofNodes (runNodes run) ++ next)
      (Token.ofNodes (gap enclosure.inBody before (runOf enclosure.mode blanks) after)
        ++ next) := by
    intro hnext hdrops
    refine alike_of_line hlead hrun (by simp [hnext]) hcases ?_
    by_cases htext : enclosure.mode = .text
    · left
      unfold gap
      split <;> simp [hdrops htext]
    · exact gap_of_countLineEndings fun hmode => absurd hmode htext
  rcases h.next_cases with hnext | hnext | hnext | ⟨hnext, hdrops⟩
  · have hline : lead = .line := hlead.resolve_left fun hl => htight ⟨hl, hnext⟩
    subst hline hnext
    exfalso
    rcases hspaces with hspaces | hspaces <;> rw [leadAt, hspaces] at hf <;> exact hnot hf
  · subst hnext
    exfalso
    rcases hspaces with hspaces | hspaces <;> rcases hlead with rfl | rfl <;>
      rw [leadAt, hspaces] at hf <;> exact hnot hf
  · rcases hlead with hl | rfl
    · exact hprefer hl hnext
    · subst hnext
      exfalso
      rcases hspaces with hspaces | hspaces <;> rw [leadAt, hspaces] at hf <;> exact hnot hf
  · exact hclosing hnext hdrops

/-- Of the blanks at a joint some may belong to what comes before. What the others are
read as comes to the same there. -/
theorem Joint.alike_gap
    (h : Joint enclosure lead run next (dropsSpace enclosure.inBody before)
      (dropsSpace enclosure.inBody after))
    (hf : (leadAt lead run next).Fits solid (taken ++ left))
    (htaken : Taken enclosure lead run.isSome (dropsSpace enclosure.inBody before) taken left) :
    Alike lead lead (Token.ofNodes (runNodes run) ++ next)
      (Token.ofNodes (gap enclosure.inBody before (runOf enclosure.mode left) after) ++ next) := by
  rcases htaken with rfl | ⟨rfl, rfl, hdrops | hline⟩ | ⟨-, hrun, rfl⟩
  · exact h.alike_of_all hf
  · have hnone : run = none := h.before hdrops
    have hgap : gap enclosure.inBody before (runOf enclosure.mode left) after = [] := by
      unfold gap
      split <;> simp [hdrops]
    rw [hnone, hgap]
    exact .rfl
  · have hrun : run ≠ some true := by
      rintro rfl
      have hlines := (h.isLines (by decide) hf).two_le_countLineEndings
      rw [hline.countLineEndings] at hlines
      exact absurd hlines (by decide)
    obtain ⟨margin, hmargin, hspaces⟩ := hline
    obtain rfl : left = margin := by simpa using hmargin
    refine alike_of_line (Or.inr rfl) hrun (by simp) ?_
      (gap_of_countLineEndings fun _ => by rw [countLineEndings_of_isSpace hspaces]; decide)
    rcases h.next_cases with hnext | hnext | hnext | ⟨hnext, -⟩ <;> simp [hnext]
  · obtain rfl : run = none := by simpa using hrun
    exact .rfl

/-- Where no line is started but for a block, the blanks are read as the run of space
they were printed for. -/
theorem Joint.gap_eq_runNodes
    (h : Joint enclosure lead run next (dropsSpace enclosure.inBody before)
      (dropsSpace enclosure.inBody after))
    (hf : (leadAt lead run next).Fits solid (taken ++ left))
    (htaken : Taken enclosure lead run.isSome (dropsSpace enclosure.inBody before) taken left)
    (hstart : lead = .start → run = none ∧ next ≠ [.endIndent, .newline])
    (hline : lead = .line → dropsSpace enclosure.inBody before = true)
    (hnext : next ≠ [] → dropsSpace enclosure.inBody after = true) :
    gap enclosure.inBody before (runOf enclosure.mode left) after = runNodes run := by
  have hdropped : (dropsSpace enclosure.inBody before || dropsSpace enclosure.inBody after) = true →
      gap enclosure.inBody before (runOf enclosure.mode left) after = [] := by
    intro hdrops
    unfold gap
    split <;> simp [hdrops]
  by_cases hafter : dropsSpace enclosure.inBody after = true
  · rw [h.after hafter]
    exact hdropped (by simp [hafter])
  obtain rfl : next = [] := by simpa using mt hnext hafter
  rcases h.lead_cases with rfl | rfl | rfl
  · obtain ⟨rfl, -⟩ := hstart rfl
    obtain ⟨-, rfl⟩ : taken = [] ∧ left = [] := List.append_eq_nil_iff.1 hf
    rfl
  · rcases htaken with rfl | ⟨hl, -⟩ | ⟨-, hrun, rfl⟩
    · exact h.gap_of_tight hf
    · cases hl
    · obtain rfl : run = none := by simpa using hrun
      rfl
  · rw [h.before (hline rfl)]
    exact hdropped (by simp [hline rfl])

end Joints

end LatexFormatter
