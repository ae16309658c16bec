import LatexFormatter.Proofs.Node.Canonical
import LatexFormatter.Proofs.Printing.Landing
import LatexFormatter.Proofs.Printing.Visible

/-
  Orderly trees survive printing, and canonical trees survive every serialization.
  A list is taken node by node from its end (`lands_all`), so what is printed of an
  orderly tree is read as one that comes to the same (`exists_regained`). Lines are
  started in a canonical tree only for the sake of blocks, so it is regained as it is;
  and its plain text spells the very tree.
-/

namespace LatexFormatter

open Node Doc

/-! ## Lists -/

/-- A run of space stands between bounds. -/
theorem run_eq_none {inBody : Bool} {before : Option Node} {run : Option Bool} {items : List Node}
    (h : Spread inBody before (runNodes run ++ items)) :
    (dropsSpace inBody before = true → run = none) ∧
      (dropsSpace inBody items.head? = true → run = none) ∧
      ((∃ node ∈ items.head?, node.isSpace = true) → run = none) := by
  cases run with
  | none => simp
  | some broken =>
    obtain ⟨hbefore, hafter⟩ := h.1 (by cases broken <;> rfl)
    have hnext : Bounds inBody items.head? := hafter
    refine ⟨fun hdrops => ?_, fun hdrops => ?_, ?_⟩
    · rw [dropsSpace_of_bounds hbefore] at hdrops
      cases hdrops
    · rw [dropsSpace_of_bounds hnext] at hdrops
      cases hdrops
    · rintro ⟨node, hnode, hspace⟩
      rw [Option.mem_def.1 hnode] at hnext
      rw [hnext.1] at hspace
      cases hspace

theorem Node.Legible.behind {mode : Mode} {run : Option Bool} {items : List Node}
    (h : Legible mode (runNodes run ++ items)) : Legible mode items := by
  cases run with
  | none => exact h
  | some broken => exact h.2.2

theorem Node.Spread.behind {inBody : Bool} {before : Option Node} {run : Option Bool} {node : Node}
    {rest : List Node} (h : Spread inBody before (runNodes run ++ node :: rest)) :
    Spread inBody (some node) rest := by
  cases run with
  | none => exact h.2
  | some broken => exact h.2.2

/-- A list behind a run of space at some lead: what is known of it, and what has been
printed of it. -/
structure AtRun (enclosure : Enclosure) (before : Option Node) (lead : Lead) (run : Option Bool)
    (items : List Node) (body : List Char) : Prop where
  orderly : OrderlyAll enclosure.mode items
  normal : NormalAll items
  legible : Legible enclosure.mode (runNodes run ++ items)
  spread : Spread enclosure.inBody before (runNodes run ++ items)
  lead_cases : lead = .start ∨ lead = .tight ∨ lead = .line
  math : enclosure.mode = .math → run ≠ some true
  laid : Laid (solids (lead.afterAll (Token.ofNodes (runNodes run))) (Token.ofNodes items)) body

namespace AtRun

variable {enclosure : Enclosure} {before : Option Node} {lead : Lead} {run : Option Bool}
  {node : Node} {rest : List Node} {body solid blanks : List Char}

theorem lands_nil (h : AtRun enclosure before lead run [] body)
    (hf : (leadAt lead run enclosure.close).Fits solid blanks) :
    Lands enclosure (dropsSpace enclosure.inBody before) lead (runNodes run) (body ++ blanks) := by
  obtain ⟨hdrops, hclose, -⟩ := run_eq_none h.spread
  obtain rfl : body = [] := by
    cases h.laid
    rfl
  refine ⟨blanks, [], by simp, jointText_nil ⟨h.lead_cases, ?_, hdrops, hclose, h.math⟩ hf⟩
  cases hline : enclosure.ownLine with
  | false => exact Or.inl (by simp [Enclosure.close, hline])
  | true =>
    refine Or.inr (Or.inr (Or.inr ⟨by simp [Enclosure.close, hline], fun htext => ?_⟩))
    exact enclosure.body_of_text hline htext

/-- A space node is the run before what comes next. -/
theorem of_space {broken : Bool}
    (h : AtRun enclosure before lead run (spaceNode broken :: rest) body) :
    run = none ∧ AtRun enclosure before lead (some broken) rest body := by
  obtain rfl : run = none := (run_eq_none h.spread).2.2 ⟨_, rfl, by cases broken <;> rfl⟩
  refine ⟨rfl, h.orderly.2, h.normal.2, h.legible, h.spread, h.lead_cases, fun hmath => ?_, ?_⟩
  · rintro heq
    obtain rfl : broken = true := by simpa using heq
    have htext : enclosure.mode = .text := h.orderly.1
    rw [hmath] at htext
    cases htext
  · have hlaid := h.laid
    cases broken <;> simpa [Token.ofNodes, Token.ofNode, spaceNode, solids] using hlaid

/-- The first node, and the rest of the list behind it. -/
theorem of_cons (hs : node.isSpace = false)
    (h : AtRun enclosure before lead run (node :: rest) body) :
    ∃ front back, body = front ++ back ∧
      AtRun enclosure (some node) (leadAfter node) none rest back ∧
      ∀ {blanks text},
        JointText enclosure node.isEnvironmentLike (leadAfter node) rest blanks text →
        AtJoint enclosure (dropsSpace enclosure.inBody before) lead run node rest front blanks
          text := by
  obtain ⟨hdrops, hafter, -⟩ := run_eq_none h.spread
  have hlaid := h.laid
  rw [Token.ofNodes, solids_append, afterAll_ofNode h.orderly.1 hs] at hlaid
  obtain ⟨front, back, rfl, hfront, hback⟩ := hlaid.of_append
  obtain ⟨hends, happart, hrest⟩ := h.legible.behind
  refine ⟨front, back, rfl, ⟨h.orderly.2, h.normal.2, hrest, h.spread.behind, ?_, by simp, hback⟩,
    fun hbehind => ⟨⟨h.lead_cases, ?_, hdrops, hafter, h.math⟩, h.orderly.1, hs, hends, ?_, hfront,
      hbehind⟩⟩
  · cases node <;> simp [leadAfter]
  · rcases directive_cases node with hd | hd | hd <;> simp [hd]
  · intro hmath
    refine ⟨fun htakes => ?_, fun htakes => ?_⟩
    · cases rest with
      | nil => rfl
      | cons next rest =>
        have hnext := happart hmath next rfl
        simp only [isApart, htakes, Bool.true_and, Bool.and_eq_true, Bool.not_eq_true'] at hnext
        simpa [startsSpaced] using hnext.1
    · cases run with
      | none => rfl
      | some broken =>
        have hnext := h.legible.2.1 hmath node rfl
        have hspace : (spaceNode broken).isSpace = true := by cases broken <;> rfl
        simp [isApart, htakes, hspace] at hnext

end AtRun

theorem readsInside_of_lands {inner : Enclosure} {items : List Node}
    (h : ∀ solid text blanks, Laid (solids inner.start (Token.ofNodes items)) text →
      (inner.start.afterAll (Token.ofNodes items ++ inner.close)).Fits solid blanks →
      Lands inner inner.inBody inner.start items (text ++ blanks)) : ReadsInside inner items := by
  intro solid text blanks hlaid hf
  obtain ⟨blanks', text', hwhole, hbehind⟩ := h solid text blanks hlaid hf
  obtain ⟨raw, hspelled, hregained⟩ := hbehind.readsRegained
  rw [hwhole]
  rw [show (inner.start == Lead.start) = false by simpa using inner.start_ne] at hspelled
  exact ⟨raw, hspelled, hregained none rfl, hbehind.filled, hbehind.brackets inner.start_ne⟩

mutual

/-- What has been printed of a node lands, whatever kind of node it is. -/
theorem lands_node : ∀ (node : Node) {enclosure : Enclosure} {dropsBefore : Bool} {lead : Lead}
    {run : Option Bool} {rest : List Node} {front blanks text : List Char}, node.Normal →
    AtJoint enclosure dropsBefore lead run node rest front blanks text →
    Lands enclosure dropsBefore lead (runNodes run ++ node :: rest) (front ++ (blanks ++ text))
  | .string content, enclosure, _, _, _, _, _, _, _, _, h => by
    have htoken := h.orderly
    have hmode := enclosure.readable
    cases hm : enclosure.mode with
    | arguments => exact absurd hm hmode
    | text =>
      rw [hm] at htoken
      rcases htoken with hc | hc | ⟨hne, hc⟩
      · exact h.lands_mark hc (Or.inl rfl)
      · exact h.lands_mark hc (Or.inr rfl)
      · exact h.lands_word hm hne hc
    | math =>
      rw [hm] at htoken
      obtain ⟨c, hcontent, rfl | rfl | hc⟩ := htoken
      · exact h.lands_mark hcontent (Or.inl rfl)
      · exact h.lands_mark hcontent (Or.inr rfl)
      · exact h.lands_mathChar hm hcontent hc
  | .command name args, _, _, _, _, _, _, _, _, _, h => by
    obtain ⟨rfl, hname⟩ := h.orderly
    exact h.lands_command hname
  | .group content, _, _, _, _, _, _, _, _, hn, h =>
    h.lands_group (readsInside content hn.1 hn.2 h.orderly.1 h.orderly.2)
  | .inlineMath content, _, _, _, _, _, _, _, _, hn, h =>
    h.lands_inlineMath (readsInside content hn.1 hn.2 h.orderly.2.2.1 h.orderly.2.2.2)
  | .displayMath content, _, _, _, _, _, _, _, _, hn, h =>
    h.lands_displayMath (readsInside content hn.1 hn.2 h.orderly.1 h.orderly.2)
  | .environment name args body, _, _, _, _, _, _, _, _, hn, h => by
    obtain ⟨rfl, -, -, hlegible, horderly⟩ := h.orderly
    exact h.lands_environment (readsInside body hn.2.1 hn.2.2 hlegible horderly)
  | .mathEnvironment name body, _, _, _, _, _, _, _, _, hn, h =>
    h.lands_mathEnvironment (readsInside body hn.1 hn.2 h.orderly.2.1 h.orderly.2.2)
  | .script mark (some base), _, _, _, _, _, _, _, _, hn, h => by
    cases hsingle : base.singleChar? with
    | some c => exact h.lands_scriptChar hsingle
    | none =>
      have horderly := h.orderly
      match base, hn, h, hsingle with
      | .group content, hn, h, hsingle =>
        exact h.lands_scriptGroup
          (readsInside content hn.1 hn.2 h.orderly.2.2.1 h.orderly.2.2.2) hsingle
      | .string content, _, h, hsingle =>
        obtain ⟨c, hcontent, -⟩ := h.orderly.2.2
        simp [singleChar?, singleChar?.ofString, hcontent] at hsingle
  | .script _ none, _, _, _, _, _, _, _, _, _, h => h.orderly.elim
  | .verb _ _, _, _, _, _, _, _, _, _, _, h => h.lands_verb
  | .verbatim _, _, _, _, _, _, _, _, _, _, h => h.lands_verbatim
  | .commentEnvironment _, _, _, _, _, _, _, _, _, _, h => h.lands_commentEnvironment
  | .comment _ _, _, _, _, _, _, _, _, _, _, h => h.lands_comment
  | .whitespace, _, _, _, _, _, _, _, _, _, h | .parbreak, _, _, _, _, _, _, _, _, _, h => by
    cases h.isSpace
  | .list _, _, _, _, _, _, _, _, _, _, h | .arguments _, _, _, _, _, _, _, _, _, _, h =>
    h.orderly.elim

/-- What has been printed of a list lands. -/
theorem lands_all : ∀ (items : List Node) {enclosure : Enclosure} {before : Option Node}
    {lead : Lead} {run : Option Bool} {body solid blanks : List Char},
    AtRun enclosure before lead run items body →
    (lead.afterAll (Token.ofNodes (runNodes run ++ items) ++ enclosure.close)).Fits solid blanks →
    Lands enclosure (dropsSpace enclosure.inBody before) lead (runNodes run ++ items)
      (body ++ blanks)
  | [], _, _, _, _, _, _, _, h, hf => by
    rw [List.append_nil] at hf ⊢
    exact h.lands_nil hf
  | node :: rest, _, _, _, _, _, _, _, h, hf => by
    cases hs : node.isSpace with
    | true =>
      obtain ⟨broken, rfl⟩ := exists_spaceNode hs
      obtain ⟨rfl, hrest⟩ := h.of_space
      exact lands_all rest hrest hf
    | false =>
      obtain ⟨front, back, rfl, hrest, hjoint⟩ := h.of_cons hs
      rw [Token.ofNodes_append, Token.ofNodes, List.append_assoc, List.append_assoc,
        Lead.afterAll_append, Lead.afterAll_append, afterAll_ofNode h.orderly.1 hs] at hf
      obtain ⟨blanks', text, hwhole, hbehind⟩ := lands_all rest hrest hf
      rw [List.append_assoc, hwhole]
      exact lands_node node h.normal.1 (hjoint hbehind)

/-- What has been printed of a list inside of its enclosure is read again. -/
theorem readsInside : ∀ (items : List Node) {enclosure : Enclosure},
    Spread enclosure.inBody none items → NormalAll items → Legible enclosure.mode items →
    OrderlyAll enclosure.mode items → ReadsInside enclosure items
  | items, enclosure, hspread, hnormal, hlegible, horderly => by
    refine readsInside_of_lands fun solid text blanks hlaid hf => ?_
    have hlead :
        enclosure.start = .start ∨ enclosure.start = .tight ∨ enclosure.start = .line := by
      unfold Enclosure.start
      split <;> simp
    have hrun : AtRun enclosure none enclosure.start none items text :=
      ⟨horderly, hnormal, hlegible, hspread, hlead, by simp, hlaid⟩
    exact lands_all items hrun hf

end

/-! ## Printed trees -/

/-- However the lines of an orderly document are broken, reading and normalizing it gives
what comes to the same, and the very document if no line is started but for a block. -/
theorem exists_regained (options : LayoutOptions) {items : List Node}
    (hlegible : Legible .text items) (horderly : OrderlyAll .text items)
    (hnormal : Normal (.list items)) {out : List Char}
    (h : Written true ((Doc.ofNode (.list items)).strands options {}) [] out) :
    ∃ found, parseNormalized (String.ofList out.reverse) = .ok (.list found) ∧
      Regained .braces false .start items found ∧ Spaced false found := by
  obtain ⟨body, blanks, hout, hlaid, hfits⟩ := laid_of_written options
    (suitsAll_of_orderly items horderly hnormal.2) (spaced_of_spread hnormal.1) h
  have hrun : AtRun .braces none .start none items body :=
    ⟨horderly, hnormal.2, hlegible, hnormal.1, Or.inl rfl, by simp, hlaid⟩
  have hends : (Lead.start.afterAll (Token.ofNodes (runNodes none ++ items)
      ++ Enclosure.close .braces)).Fits [] blanks := by
    simpa [Enclosure.close, Enclosure.braces] using hfits
  obtain ⟨blanks', text, hwhole, hbehind⟩ := lands_all items hrun hends
  obtain ⟨raw, hspelled, hregained⟩ := hbehind.readsRegained
  refine ⟨collapse false (raw.map normalize), ?_, hregained none rfl, spaced_collapseFrom ..⟩
  rw [hout, hwhole, parseNormalized, parse_spelled hspelled, ← normalize_list]
  rfl

/-- What either printer makes of an orderly document is read as one that comes to the
same. -/
theorem exists_regained_printTokens (options : TextOptions) {items : List Node}
    (hlegible : Legible .text items) (horderly : OrderlyAll .text items)
    (hnormal : Normal (.list items)) :
    ∃ found, parseNormalized (printTokens options (.list items)) = .ok (.list found) ∧
      Regained .braces false .start items found ∧ Spaced false found := by
  -- the page shows one way of breaking the lines of the document
  let indenting : LayoutOptions := { useTabs := true }
  have hwritten : Doc.Written true ((Doc.ofNode (.list items)).strands indenting {}) [] _ :=
    layBy_written options rfl (Token.wrapsAtSpace_wraps options) (by simp) (fun _ => rfl)
      (spaced_of_spread hnormal.1) (suitsAll_of_orderly items horderly hnormal.2)
  rw [← Token.layOut_eq_layBy] at hwritten
  exact exists_regained indenting hlegible horderly hnormal hwritten

theorem exists_regained_printDoc (options : LayoutOptions) {items : List Node}
    (hlegible : Legible .text items) (horderly : OrderlyAll .text items)
    (hnormal : Normal (.list items)) :
    ∃ found, parseNormalized (printDoc options (.list items)) = .ok (.list found) ∧
      Regained .braces false .start items found ∧ Spaced false found := by
  obtain ⟨out, htext, hwritten⟩ := Doc.render_written options (Doc.isLinear_ofNode (.list items))
  rw [printDoc, htext]
  exact exists_regained options hlegible horderly hnormal hwritten

/-! ## The plain text -/

/-- Characters of math spell themselves. -/
theorem spelled_mathChars {content : List Node} (fresh : Bool)
    (h : ∀ node ∈ content, ∃ c, node = .string (String.ofList [c]) ∧ isMathChar c = true) :
    Spelled .math fresh content (displayAll content) := by
  induction content generalizing fresh with
  | nil => exact .nil
  | cons node rest ih =>
    obtain ⟨c, rfl, hc⟩ := h node (by simp)
    rw [displayAll, display, String.toList_ofList]
    exact .char c hc (ih false fun other hother => h other (by simp [hother]))

/-- What is known of the lists of a canonical tree. -/
structure InCanonical (inBody : Bool) (before : Option Node) (items : List Node) : Prop where
  admissible : AdmissibleAll items
  orderly : OrderlyAll .text items
  normal : NormalAll items
  legible : Legible .text items
  spread : Spread inBody before items

namespace InCanonical

variable {inBody : Bool} {before : Option Node} {node : Node} {items rest : List Node}

theorem tail (h : InCanonical inBody before (node :: rest)) : InCanonical inBody (some node) rest :=
  ⟨h.admissible.2, h.orderly.2, h.normal.2, h.legible.2.2, h.spread.2⟩

theorem continues (h : InCanonical inBody before items) : Continues items (displayAll items) := by
  induction items generalizing before with
  | nil => exact ⟨[], rfl, sealed_nil⟩
  | cons node rest ih =>
    cases node with
    | string content => exact (ih h.tail).string
    | whitespace | parbreak | command | group | inlineMath | verbatim | environment =>
      exact continues_of_sealed (by simp [isString])
        (by rw [displayAll, display]; exact sealed_cons (by decide))
    | _ => exact h.admissible.1.elim

/-- Unless it begins with space, the text begins with neither a blank, a percent sign nor a
bracket. -/
theorem head (h : InCanonical inBody before items)
    (hs : ∀ node ∈ items.head?, node.isSpace = false) :
    ∀ c ∈ (displayAll items).head?, isBlank c = false ∧ c ≠ '%' ∧ c ≠ '[' := by
  cases items with
  | nil => simp [displayAll]
  | cons node rest =>
    cases node with
    | string content =>
      obtain ⟨d, ds, hd⟩ := List.exists_cons_of_ne_nil (h.legible.1 rfl).1
      have hword : isWordChar d = true := h.admissible.1 d (by simp [hd])
      simp only [isWordChar, Bool.and_eq_true, Bool.or_eq_true, bne_iff_ne] at hword
      have hpercent : d ≠ '%' := by
        rintro rfl
        exact absurd (isSpecial_of_word hword.1) (by decide)
      have hblank := hword.1.elim isBlank_of_isPlain isBlank_of_isPunctuation
      simpa [displayAll, display, hd] using ⟨hblank, hpercent, hword.2⟩
    | whitespace | parbreak => cases hs _ rfl
    | command | group | inlineMath | verbatim | environment =>
      simp [displayAll, display, openingTag, isBlank, LatexFormatter.isSpace, isLineBreak]
    | _ => exact h.admissible.1.elim

theorem head_behind_space (h : InCanonical inBody before (node :: rest))
    (hs : node.isSpace = true) :
    ∀ c ∈ (displayAll rest).head?, isBlank c = false ∧ c ≠ '%' ∧ c ≠ '[' := by
  refine h.tail.head fun next hnext => ?_
  have hbounds := (h.spread.1 hs).2
  rw [Option.mem_def.1 hnext] at hbounds
  exact hbounds.1

theorem not_opensArguments (h : InCanonical inBody before items) :
    ¬ OpensArguments (displayAll items) := by
  intro hopens
  cases items with
  | nil => simp [displayAll, OpensArguments] at hopens
  | cons node rest =>
    cases hs : node.isSpace with
    | false =>
      have hhead := h.head fun other hother => by simpa [← Option.some_inj.1 hother] using hs
      have hbare : OpensArguments ([] ++ displayAll (node :: rest)) := hopens
      have hbracket := head_of_opensArguments (by simp) (fun c hc => (hhead c hc).1) hbare
      exact (hhead '[' hbracket).2.2 rfl
    | true =>
      have hhead := h.head_behind_space hs
      have hblank : ∀ c ∈ node.display, isBlank c = true := by
        rcases isSpace_iff.1 hs with rfl | rfl <;>
          simp [display, isBlank, LatexFormatter.isSpace, isLineBreak]
      rw [displayAll] at hopens
      have hbracket := head_of_opensArguments hblank (fun c hc => (hhead c hc).1) hopens
      exact (hhead '[' hbracket).2.2 rfl

/-- A space node is spelled by its plain text. -/
theorem spelled_space {broken fresh : Bool}
    (h : InCanonical inBody before (spaceNode broken :: rest))
    (hrest : ∀ fresh, Spelled .text fresh rest (displayAll rest)) :
    Spelled .text fresh (spaceNode broken :: rest) (displayAll (spaceNode broken :: rest)) := by
  have hhead := h.head_behind_space (by cases broken <;> rfl)
  have hspelled : Spelled .text fresh (spaceOf (spaceNode broken).display :: rest)
      ((spaceNode broken).display ++ displayAll rest) := by
    refine .space ?_ ?_ (fun c hc => (hhead c hc).1)
      (fun hpercent => absurd rfl (hhead '%' hpercent).2.1) (hrest _)
    · cases broken <;> simp [spaceNode, display]
    · cases broken <;> simp [spaceNode, display, isBlank, LatexFormatter.isSpace, isLineBreak]
  cases broken <;> exact hspelled

end InCanonical

mutual

/-- A node is spelled by its plain text, if the rest of its list is. -/
theorem spelled_display : ∀ (node : Node) {inBody fresh : Bool} {before : Option Node}
    {rest : List Node}, node.isSpace = false → InCanonical inBody before (node :: rest) →
    (∀ fresh, Spelled .text fresh rest (displayAll rest)) →
    Spelled .text fresh (node :: rest) (display node ++ displayAll rest)
  | .string content, _, _, _, rest, _, h, hrest => by
    obtain ⟨after, hafter, hsealed⟩ := h.tail.continues
    obtain ⟨hne, hends⟩ := h.legible.1 rfl
    have hmark : (Node.string content).isMark = false := by
      rw [Bool.eq_false_iff]
      intro hmark
      rcases isMark_string.1 hmark with hcontent | hcontent
      · exact absurd (h.admissible.1 '&' (by simp [hcontent])) (by decide)
      · exact absurd (h.admissible.1 '#' (by simp [hcontent])) (by decide)
    have hwords : ∀ c ∈ content.toList, isPlain c = true ∨ isPunctuation c = true := by
      intro c hc
      have hword : isWordChar c = true := h.admissible.1 c hc
      simp only [isWordChar, Bool.and_eq_true, Bool.or_eq_true] at hword
      exact hword.1
    refine .string content hne hwords ?_ (hrest false)
    rw [hafter, ← List.append_assoc, wordLength_append (by simp [hne]) hsealed]
    exact hends.resolve_left (by simp [hmark])
  | .command name args, _, _, _, rest, _, h, hrest => by
    obtain ⟨after, hafter, hsealed⟩ := h.tail.continues
    have hname : IsCommandName name.toList := isCommandName_of_admissible h.admissible.1
    obtain ⟨-, hends⟩ := h.legible.1
    obtain rfl : args = none := h.admissible.1.1
    have hletters : ∀ c ∈ (displayAll rest).head?, isLetter c = false := by
      rw [hafter]
      intro c hc
      rcases mem_head?_append hc with hc | hc
      · exact hends hname.letters c hc
      · exact (of_isSpecial (hsealed c hc)).2.2.1
    rw [display, displayArgs, List.append_nil]
    exact .command name hname hletters h.tail.not_opensArguments (hrest false)
  | .group content, _, fresh, _, rest, _, h, hrest => by
    obtain ⟨hlegible, horderly⟩ := h.orderly.1
    have hinner : InCanonical false none content :=
      ⟨h.admissible.1.1, horderly, h.normal.1.2, hlegible, h.normal.1.1⟩
    have hspelled : Spelled .text fresh (.group content :: rest)
        ([] ++ '{' :: displayAll content ++ '}' :: [] ++ displayAll rest) :=
      .group ⟨rfl, rfl, by simp⟩ (spelled_displayAll content hinner) (hrest _)
    exact hspelled
  | .inlineMath content, _, _, _, rest, _, h, hrest => by
    obtain ⟨hne, hchars⟩ := h.admissible.1
    have hfilled : displayAll content ≠ [] := by
      obtain ⟨node, more, rfl⟩ := List.exists_cons_of_ne_nil hne
      obtain ⟨c, rfl, -⟩ := hchars node (by simp)
      simp [displayAll, display]
    exact .inlineMath hfilled (spelled_mathChars false hchars) (hrest false)
  | .verbatim content, _, _, _, rest, _, h, hrest => .verbatim content h.orderly.1 (hrest false)
  | .environment name args body, _, _, _, rest, _, h, hrest => by
    obtain ⟨rfl, hname, -, hlegible, horderly⟩ := h.orderly.1
    have hinner : InCanonical true none body :=
      ⟨h.admissible.1.2.2.2.2.2.1, horderly, h.normal.1.2.2, hlegible, h.normal.1.2.1⟩
    rw [display, displayArgs, List.append_nil]
    exact .environment name hname hinner.not_opensArguments (spelled_displayAll body hinner)
      (hrest false)
  | .whitespace, _, _, _, _, hs, _, _ | .parbreak, _, _, _, _, hs, _, _ => by cases hs
  | .list _, _, _, _, _, _, h, _ | .mathEnvironment _ _, _, _, _, _, _, h, _
  | .displayMath _, _, _, _, _, _, h, _ | .script _ _, _, _, _, _, _, h, _
  | .verb _ _, _, _, _, _, _, h, _ | .commentEnvironment _, _, _, _, _, _, h, _
  | .comment _ _, _, _, _, _, _, h, _ | .arguments _, _, _, _, _, _, h, _ => h.admissible.1.elim

/-- A list is spelled by its plain text. -/
theorem spelled_displayAll : ∀ (items : List Node) {inBody fresh : Bool} {before : Option Node},
    InCanonical inBody before items → Spelled .text fresh items (displayAll items)
  | [], _, _, _, _ => .nil
  | node :: rest, _, _, _, h => by
    have hrest : ∀ fresh, Spelled .text fresh rest (displayAll rest) := fun _ =>
      spelled_displayAll rest h.tail
    cases hs : node.isSpace with
    | true =>
      obtain ⟨broken, rfl⟩ := exists_spaceNode hs
      exact h.spelled_space hrest
    | false => exact spelled_display node hs h hrest

end

/-! ## Every serialization -/

theorem allBreakAtBlocks_of_strings {items : List Node}
    (h : ∀ node ∈ items, node.isString = true) : allBreakAtBlocks items = true := by
  induction items with
  | nil => rfl
  | cons node rest ih =>
    obtain ⟨content, rfl⟩ := exists_string (h node (by simp))
    exact ih fun other hother => h other (by simp [hother])

mutual

/-- In a canonical tree lines are started only for the sake of blocks. -/
theorem breaksAtBlocks_of_admissible : ∀ node : Node, Admissible node → breaksAtBlocks node = true
  | .string _, _ | .whitespace, _ | .parbreak, _ | .verbatim _, _ => rfl
  | .command name _, ha => by
    have hname : ∀ other ∈ reservedCommands, name ≠ other := fun other hmem heq =>
      ha.2.2.2 (heq ▸ hmem)
    simp [breaksAtBlocks, startsLine, lineStartCommands, startsParagraph,
      paragraphCommands, hname "item" (by decide), hname "usepackage" (by decide),
      hname "newcommand" (by decide)]
  | .group content, ha => allBreakAtBlocks_of_admissible content ha.1
  | .environment _ _ body, ha => allBreakAtBlocks_of_admissible body ha.2.2.2.2.2.1
  | .inlineMath content, ha => allBreakAtBlocks_of_strings fun node hnode => by
    obtain ⟨c, rfl, -⟩ := ha.2 node hnode
    rfl
  | .list _, ha | .mathEnvironment _ _, ha | .displayMath _, ha | .script _ _, ha | .verb _ _, ha
  | .commentEnvironment _, ha | .comment _ _, ha | .arguments _, ha => ha.elim

theorem allBreakAtBlocks_of_admissible : ∀ items : List Node, AdmissibleAll items →
    allBreakAtBlocks items = true
  | [], _ => rfl
  | node :: rest, ha => by
    simp [allBreakAtBlocks, breaksAtBlocks_of_admissible node ha.1,
      allBreakAtBlocks_of_admissible rest ha.2]

end

/-- The plain text of a canonical tree is read as the tree. What either printer
makes of it, whatever the options, is read as the tree once it is
normalized. -/
theorem canonical_survives {tree : Node} (h : Canonical tree) (textOptions : TextOptions)
    (layoutOptions : LayoutOptions) :
    parse tree.displayText = .ok tree ∧
      parseNormalized (printTokens textOptions tree) = .ok tree ∧
      parseNormalized (printDoc layoutOptions tree) = .ok tree := by
  obtain ⟨items, rfl, ha, hnormal, hlegible, horderly, hfirst⟩ := h.orderly
  have hblocks : BreaksAtBlocks .braces false .start items :=
    ⟨allBreakAtBlocks_of_admissible items ha, fun _ => ⟨rfl, hfirst⟩, by simp, by decide⟩
  obtain ⟨found, htext, hregained, -⟩ :=
    exists_regained_printTokens textOptions hlegible horderly hnormal
  obtain ⟨found', htext', hregained', -⟩ :=
    exists_regained_printDoc layoutOptions hlegible horderly hnormal
  rw [hregained.same hblocks] at htext
  rw [hregained'.same hblocks] at htext'
  exact ⟨parse_spelled (spelled_displayAll items
    ⟨ha, horderly, hnormal.2, hlegible, hnormal.1⟩), htext, htext'⟩

/-- Words between which a line may break, a number, math, an environment with two
paragraphs and literal text. -/
def mixedTree : Node :=
  .list [.string "Some", .whitespace, .string "words", .whitespace, .command "emph" none,
    .group [.string "3.5", .string "cm", .whitespace], .inlineMath [.string "x", .string "["],
    .environment "quote" none [.string "a", .parbreak, .command "b" none, .whitespace, .string "c"],
    .verbatim " %\n", .string "End", .string "."]

theorem canonical_mixedTree : Canonical mixedTree := by
  have hread : ∀ strings : List Node, strings ∈ [[.string "Some"], [.string "words"],
      [.string "3.5", .string "cm"], [.string "a"], [.string "c"], [.string "End", .string "."]] →
      parse (Node.list strings).displayText = .ok (.list strings) := by
    intro strings hmem
    simp only [List.mem_cons, List.not_mem_nil, or_false] at hmem
    unfold parse readDocument
    rw [readDocumentBy_cached]
    rcases hmem with rfl | rfl | rfl | rfl | rfl | rfl <;> rfl
  have hgroup : StringsRead [.string "3.5", .string "cm", .whitespace] :=
    .append [.string "3.5", .string "cm"] (by simp [isString]) (by simp [isString])
      (hread _ (by simp)) (stringsRead_nil.cons rfl)
  have hbody : StringsRead
      [.string "a", .parbreak, .command "b" none, .whitespace, .string "c"] := by
    have hlast : StringsRead [.string "c"] :=
      .append [.string "c"] (by simp [isString]) (by simp) (hread _ (by simp)) stringsRead_nil
    exact .append [.string "a"] (by simp [isString]) (by simp [isString]) (hread _ (by simp))
      (((hlast.cons rfl).cons rfl).cons rfl)
  have hroot : StringsRead [.string "End", .string "."] :=
    .append [.string "End", .string "."] (by simp [isString]) (by simp) (hread _ (by simp))
      stringsRead_nil
  have hwords : ∀ content ∈ ["Some", "words", "3.5", "cm", "a", "c", "End", "."],
      Admissible (.string content) := by
    intro content hmem
    have hall : content.toList.all isWordChar = true := by
      revert content
      decide
    exact List.all_eq_true.1 hall
  refine ⟨⟨_, rfl, ⟨hwords _ (by simp), trivial, hwords _ (by simp), trivial, ?_, ?_, ?_, ?_, ?_,
    hwords _ (by simp), hwords _ (by simp), trivial⟩, ?_, ?_, by simp [Node.isSpace]⟩, rfl⟩
  · exact ⟨rfl, by decide, List.all_eq_true.1 rfl, by decide⟩
  · refine ⟨⟨hwords _ (by simp), hwords _ (by simp), trivial, trivial⟩, hgroup, ?_⟩
    simp [CommandsEnd, isCommand]
  · refine ⟨by simp, ?_⟩
    intro node hnode
    rcases List.mem_pair.1 hnode with rfl | rfl
    · exact ⟨'x', rfl, by decide⟩
    · exact ⟨'[', rfl, by decide⟩
  · refine ⟨rfl, by simp, by decide, by decide, by decide, ?_, hbody, ?_⟩
    · exact ⟨hwords _ (by simp), trivial, ⟨rfl, by decide, List.all_eq_true.1 rfl, by decide⟩,
        trivial, hwords _ (by simp), trivial⟩
    · simp [CommandsEnd, isCommand, startsWithLetter]
  · show ¬ closingTag verbatimName <:+: " %\n".toList
    decide
  · exact .append [.string "Some"] (by simp [isString]) (by simp [isString]) (hread _ (by simp))
      (.cons rfl (.append [.string "words"] (by simp [isString]) (by simp [isString])
        (hread _ (by simp))
        (((((hroot.cons rfl).cons rfl).cons rfl).cons rfl).cons rfl |>.cons rfl)))
  · simp [CommandsEnd, isCommand, startsWithLetter]

/-- Narrow lines break the tree in both printers, and it is read back all the
same. -/
theorem canonical_survives_mixedTree :
    Canonical mixedTree ∧ parse mixedTree.displayText = .ok mixedTree ∧
      parseNormalized (printTokens ⟨6, 4⟩ mixedTree) = .ok mixedTree ∧
      parseNormalized (printDoc ⟨6, 4, false, ""⟩ mixedTree) = .ok mixedTree :=
  ⟨canonical_mixedTree, canonical_survives canonical_mixedTree ⟨6, 4⟩ ⟨6, 4, false, ""⟩⟩

end LatexFormatter
