import LatexFormatter.Proofs.Node.Orderly
import LatexFormatter.Proofs.Printing.Joints

/-
  What is regained of a list. The blanks and texts printed of an orderly list spell a
  list with more or less space in it. What normalization leaves of that comes to the
  same when it is printed again (`Regained`), and where lines are started only for the
  sake of blocks, it is the list itself.

  A list is regained from its end. Behind each node the text begins with the blanks of
  a joint, and of these the node before may take some along; the rest of the list is
  regained from what it leaves (`JointText`). Comments are settled here too, for where a
  comment stands on its line decides how it is read.
-/

namespace LatexFormatter

open Node Doc

/-! ## What may follow a word or a command -/

/-- The text begins with the strings at the head of the list, and what comes after
them cannot continue a word. -/
def Continues (items : List Node) (text : List Char) : Prop :=
  ∃ after, text = leadingText items ++ after ∧ Sealed after

theorem continues_of_sealed {items : List Node} {text : List Char}
    (h : ∀ node ∈ items.head?, node.isString = false) (ht : Sealed text) : Continues items text :=
  ⟨text, by rw [leadingText_of_head h, List.nil_append], ht⟩

theorem Continues.string {content : String} {rest : List Node} {text : List Char}
    (h : Continues rest text) : Continues (.string content :: rest) (content.toList ++ text) := by
  obtain ⟨after, rfl, hsealed⟩ := h
  exact ⟨after, by simp [leadingText], hsealed⟩

theorem sealed_blanks_append {blanks text : List Char} (hb : ∀ c ∈ blanks, isBlank c = true)
    (ht : Sealed text) : Sealed (blanks ++ text) := by
  cases blanks with
  | nil => exact ht
  | cons b bs => exact sealed_cons (isSpecial_of_isBlank (hb b (by simp)))

/-! ## Where lines are started -/

mutual

/-- No line is started but for a block environment, and every base of a script is
written as it is. -/
def breaksAtBlocks : Node → Bool
  | .string _ | .whitespace | .parbreak | .verbatim _ | .verb _ _ | .commentEnvironment _ => true
  | .command name _ => !startsLine name && !startsParagraph name
  | .group content | .inlineMath content | .environment _ _ content
  | .mathEnvironment _ content => allBreakAtBlocks content
  | .list _ | .displayMath _ | .script _ _ | .comment _ _ | .arguments _ => false

def allBreakAtBlocks : List Node → Bool
  | [] => true
  | node :: rest => breaksAtBlocks node && allBreakAtBlocks rest

end

theorem directive_of_breaksAtBlocks {node : Node} (h : breaksAtBlocks node = true)
    (hd : directive node ≠ []) : node.isEnvironmentLike = true := by
  cases node with
  | command name args =>
    simp only [breaksAtBlocks, Bool.and_eq_true, Bool.not_eq_true'] at h
    simp [directive, Token.beforeCommand, h.1, h.2] at hd
  | displayMath | comment => simp [breaksAtBlocks] at h
  | environment | mathEnvironment | verbatim | commentEnvironment => rfl
  | _ => exact absurd rfl hd

/-! ## What is regained -/

/-- No line is started in the list or beside it but for a block, and no space at the
start of the document. -/
structure BreaksAtBlocks (enclosure : Enclosure) (dropsBefore : Bool) (lead : Lead)
    (items : List Node) : Prop where
  blocks : allBreakAtBlocks items = true
  start : lead = .start → enclosure.ownLine = false ∧ ∀ node ∈ items.head?, node.isSpace = false
  line : lead = .line → dropsBefore = true
  closing : enclosure.ownLine = true → enclosure.inBody = true

/-- What comes to the same as a list when it is printed again, up to what closes the
list. No text in it could lose a space at its end. If lines are started only for the
sake of blocks, it is the list itself. -/
structure Regained (enclosure : Enclosure) (dropsBefore : Bool) (lead : Lead)
    (items found : List Node) : Prop where
  alike : Alike lead lead (Token.ofNodes items ++ enclosure.close)
    (Token.ofNodes found ++ enclosure.close)
  suits : SuitsAll .bare found
  same : BreaksAtBlocks enclosure dropsBefore lead items → found = items

/-- The text is read as what is regained of a list. -/
def ReadsRegained (enclosure : Enclosure) (dropsBefore : Bool) (lead : Lead) (items : List Node)
    (fresh : Bool) (text : List Char) : Prop :=
  ∃ raw, Spelled enclosure.mode fresh raw text ∧
    ∀ before, dropsSpace enclosure.inBody before = dropsBefore →
      Regained enclosure dropsBefore lead items
        (collapseFrom enclosure.inBody before none (raw.map normalize))

/-- Whether a list begins with a space node. -/
def startsSpaced (items : List Node) : Bool := items.head?.any Node.isSpace

/-- At a joint, the text is some blanks, and then what stands for the list. -/
structure JointText (enclosure : Enclosure) (dropsBefore : Bool) (lead : Lead) (items : List Node)
    (blanks text : List Char) : Prop where
  isBlank : ∀ c ∈ blanks, isBlank c = true
  head : ∀ c ∈ text.head?, LatexFormatter.isBlank c = false
  filled : lead = .tight → items ≠ [] → blanks ++ text ≠ []
  continues : lead = .tight → Continues items (blanks ++ text)
  brackets : lead ≠ .start → OpensArguments (blanks ++ text) → opensArguments items = true
  line : lead = .line → IsLine blanks ∨ IsLines blanks
  reads : ∀ taken left, taken ++ left = blanks →
    Taken enclosure lead (startsSpaced items) dropsBefore taken left →
    ReadsRegained enclosure dropsBefore lead items (freshAfterAll (lead == .start) taken)
      (left ++ text)

section Steps

variable {enclosure : Enclosure} {dropsBefore : Bool} {lead : Lead} {run : Option Bool}
  {node : Node} {rest items : List Node} {solid blanks text : List Char}

theorem startsSpaced_runNodes (h : ∀ node ∈ items.head?, node.isSpace = false) :
    startsSpaced (runNodes run ++ items) = run.isSome := by
  rcases run with _ | _ | _
  · cases items with
    | nil => rfl
    | cons node rest => simpa [startsSpaced] using h node
  · rfl
  · rfl

/-- A space leaves blanks, unless it stands at the start. -/
theorem ne_nil_of_fits {next : List Token} {dropsAfter : Bool}
    (h : Joint enclosure lead run next dropsBefore dropsAfter) (hlead : lead ≠ .start)
    (hrun : run ≠ none ∨ lead = .line) (hf : (leadAt lead run next).Fits solid blanks) :
    blanks ≠ [] := by
  have hline : ∀ {blanks}, IsLine blanks → blanks ≠ [] := by
    rintro _ ⟨margin, rfl, -⟩
    simp
  have hlines : ∀ {blanks}, IsLines blanks → blanks ≠ [] := by
    rintro _ ⟨more, rfl, -⟩
    simp
  rcases run with _ | _ | _
  · obtain rfl := hrun.resolve_left (by simp)
    rcases h.next_cases with rfl | rfl | rfl | ⟨rfl, -⟩ <;> first | exact hline hf | exact hlines hf
  · rcases h.lead_cases with rfl | rfl | rfl
    · exact absurd rfl hlead
    · rcases h.next_cases with rfl | rfl | rfl | ⟨rfl, -⟩
      · rcases hf with rfl | ⟨-, hf⟩
        · simp
        · exact hline hf
      · exact hline hf
      · exact hlines hf
      · exact hline hf
    · rcases h.next_cases with rfl | rfl | rfl | ⟨rfl, -⟩ <;>
        first | exact hline hf | exact hlines hf
  · exact hlines (h.isLines hlead hf)

/-- At the start of a line stand line endings. -/
theorem line_of_fits {next : List Token} {dropsAfter : Bool}
    (h : Joint enclosure .line run next dropsBefore dropsAfter)
    (hf : (leadAt .line run next).Fits solid blanks) : IsLine blanks ∨ IsLines blanks := by
  rcases run with _ | _ | _
  · rcases h.next_cases with rfl | rfl | rfl | ⟨rfl, -⟩ <;>
      first | exact Or.inl hf | exact Or.inr hf
  · rcases h.next_cases with rfl | rfl | rfl | ⟨rfl, -⟩ <;>
      first | exact Or.inl hf | exact Or.inr hf
  · exact Or.inr (h.isLines (by decide) hf)

theorem suits_gap (inBody : Bool) (before : Option Node) (run : Option Bool)
    (after : Option Node) : SuitsAll .bare (gap inBody before run after) := by
  rcases gap_cases inBody before run after with h | h | h <;> rw [h]
  · trivial
  · exact ⟨trivial, trivial⟩
  · exact ⟨by simp [Suits], trivial⟩

/-- At the end of a list nothing is left but a run of space. -/
theorem Joint.regained_nil {before : Option Node} {taken left : List Char}
    (h : Joint enclosure lead run enclosure.close (dropsSpace enclosure.inBody before)
      (dropsSpace enclosure.inBody none))
    (hf : (leadAt lead run enclosure.close).Fits solid (taken ++ left))
    (htaken : Taken enclosure lead run.isSome (dropsSpace enclosure.inBody before) taken left) :
    Regained enclosure (dropsSpace enclosure.inBody before) lead (runNodes run)
      (gap enclosure.inBody before (runOf enclosure.mode left) none) where
  alike := h.alike_gap hf htaken
  suits := suits_gap ..
  same hblocks := by
    refine h.gap_eq_runNodes hf htaken (fun hstart => ?_) hblocks.line (fun hclose => ?_)
    · obtain ⟨hline, hfirst⟩ := hblocks.start hstart
      refine ⟨?_, by simp [Enclosure.close, hline]⟩
      rcases run with _ | _ | _
      · rfl
      · exact absurd (hfirst _ rfl) (by decide)
      · exact absurd (hfirst _ rfl) (by decide)
    · cases hline : enclosure.ownLine with
      | false => simp [Enclosure.close, hline] at hclose
      | true => exact hblocks.closing hline

/-- What a node is read as once it has been printed: the node, or one that comes to the
same wherever it is printed. -/
structure SamePrint (node node' : Node) : Prop where
  isSpace : node'.isSpace = false
  isEnvironmentLike : node'.isEnvironmentLike = node.isEnvironmentLike
  alike : ∀ lead, Alike lead lead (Token.ofNode node) (Token.ofNode node')
  suits : node'.Suits .bare
  same : breaksAtBlocks node = true → node' = node

/-- A node and the space before it, and the rest of the list behind them. -/
theorem regained_append {node' : Node} {space found : List Node}
    (hspace : Alike lead lead (Token.ofNodes (runNodes run) ++ directive node)
      (Token.ofNodes space ++ directive node))
    (hnode : Alike (lead.afterAll (Token.ofNodes space)) (lead.afterAll (Token.ofNodes space))
      (Token.ofNode node) (Token.ofNode node'))
    (hsuits : SuitsAll .bare (space ++ [node']))
    (hsame : BreaksAtBlocks enclosure dropsBefore lead (runNodes run ++ node :: rest) →
      space = runNodes run ∧ node' = node)
    (hafter : lead.afterAll (Token.ofNodes (runNodes run) ++ Token.ofNode node) = leadAfter node)
    (hrest : Regained enclosure node.isEnvironmentLike (leadAfter node) rest found) :
    Regained enclosure dropsBefore lead (runNodes run ++ node :: rest)
      (space ++ node' :: found) := by
  refine ⟨?_, ?_, fun hblocks => ?_⟩
  · obtain ⟨core, hcore⟩ := ofNode_eq_directive node
    have hfirst := hspace.before core
    rw [List.append_assoc, List.append_assoc, ← hcore] at hfirst
    have hboth := hfirst.trans (hnode.behind _)
    have hall : Alike lead lead
        (Token.ofNodes (runNodes run) ++ Token.ofNode node
          ++ (Token.ofNodes rest ++ enclosure.close))
        (Token.ofNodes space ++ Token.ofNode node'
          ++ (Token.ofNodes found ++ enclosure.close)) := by
      refine hboth.append ?_
      rw [← hboth.2, hafter]
      exact hrest.alike
    simpa [Token.ofNodes_append, Token.ofNodes] using hall
  · rw [← List.singleton_append, ← List.append_assoc]
    exact suitsAll_append hsuits hrest.suits
  · obtain ⟨rfl, rfl⟩ := hsame hblocks
    have hitems : breaksAtBlocks node' = true ∧ allBreakAtBlocks rest = true := by
      have hitems := hblocks.blocks
      rcases run with _ | _ | _ <;>
        simpa [allBreakAtBlocks, breaksAtBlocks, spaceNode] using hitems
    rw [hrest.same]
    refine ⟨hitems.2, ?_, ?_, hblocks.closing⟩
    · cases node' <;> simp [leadAfter]
    · cases node' <;> simp_all [leadAfter, breaksAtBlocks, isEnvironmentLike]

/-- A node behind a joint, and the rest of the list behind it. -/
theorem Joint.regained_cons {before : Option Node} {node' : Node} {found : List Node}
    {taken left : List Char} (hmade : SamePrint node node')
    (h : Joint enclosure lead run (directive node) (dropsSpace enclosure.inBody before)
      node.isEnvironmentLike)
    (hf : (leadAt lead run (directive node)).Fits solid (taken ++ left))
    (htaken : Taken enclosure lead run.isSome (dropsSpace enclosure.inBody before) taken left)
    (hafter : ∀ lead : Lead, lead.afterAll (Token.ofNode node) = leadAfter node)
    (hrest : Regained enclosure node.isEnvironmentLike (leadAfter node) rest found) :
    Regained enclosure (dropsSpace enclosure.inBody before) lead (runNodes run ++ node :: rest)
      (gap enclosure.inBody before (runOf enclosure.mode left) (some node') ++ node' :: found) := by
  have hjoint : Joint enclosure lead run (directive node) (dropsSpace enclosure.inBody before)
      (dropsSpace enclosure.inBody (some node')) := by
    rwa [dropsSpace, hmade.isEnvironmentLike]
  refine regained_append (hjoint.alike_gap hf htaken) (hmade.alike _)
    (suitsAll_append (suits_gap ..) ⟨hmade.suits, trivial⟩) (fun hblocks => ?_)
    (by rw [Lead.afterAll_append, hafter]) hrest
  have hitem : breaksAtBlocks node = true := by
    have hitems := hblocks.blocks
    rcases run with _ | _ | _ <;>
      simp_all [allBreakAtBlocks, breaksAtBlocks, spaceNode]
  have hfirst : lead = .start → run = none := by
    intro hstart
    rcases run with _ | _ | _
    · rfl
    · exact absurd ((hblocks.start hstart).2 _ rfl) (by decide)
    · exact absurd ((hblocks.start hstart).2 _ rfl) (by decide)
  refine ⟨hjoint.gap_eq_runNodes hf htaken (fun hstart => ⟨hfirst hstart, fun hclose => ?_⟩)
    hblocks.line fun hd => ?_, hmade.same hitem⟩
  · rcases directive_cases node with hd | hd | hd <;> rw [hd] at hclose <;> simp at hclose
  · exact hmade.isEnvironmentLike.trans (directive_of_breaksAtBlocks hitem hd)

/-- Nothing opens arguments behind lines. -/
theorem not_opensArguments_of_isLines (ht : ∀ c ∈ text.head?, isBlank c = false)
    (h : IsLines blanks) : ¬ OpensArguments (blanks ++ text) := by
  have hlt := h.whitespaceLength_lt
  obtain ⟨b, bs, hdrop⟩ : ∃ b bs, blanks.drop (whitespaceLength blanks) = b :: bs :=
    List.exists_cons_of_ne_nil fun hnil => by
      have := List.drop_eq_nil_iff.1 hnil
      omega
  have hblank : isBlank b = true := h.isBlank b (List.mem_of_mem_drop (hdrop ▸ List.mem_cons_self))
  rw [OpensArguments, whitespaceLength_append_of_head _ ht,
    List.drop_append_of_le_length hlt.le, hdrop]
  intro hbracket
  obtain rfl : b = '[' := by simpa using hbracket
  revert hblank
  decide

/-- Only a bracket opens arguments. -/
theorem head_of_opensArguments (hb : ∀ c ∈ blanks, isBlank c = true)
    (ht : ∀ c ∈ text.head?, isBlank c = false) (h : OpensArguments (blanks ++ text)) :
    text.head? = some '[' := by
  rw [OpensArguments, whitespaceLength_append_of_head _ ht,
    List.drop_append_of_le_length (whitespaceLength_le _)] at h
  rcases mem_head?_append (Option.mem_def.2 h) with hmem | hmem
  · have hblank := hb _ (List.mem_of_mem_drop (List.mem_of_mem_head? hmem))
    exact absurd hblank (by decide)
  · exact hmem

/-- The end of a list, before what closes it. -/
theorem jointText_nil (h : Joint enclosure lead run enclosure.close dropsBefore enclosure.inBody)
    (hf : (leadAt lead run enclosure.close).Fits solid blanks) :
    JointText enclosure dropsBefore lead (runNodes run) blanks [] where
  isBlank := hf.isBlank
  head := by simp
  filled hlead hne := by
    rw [List.append_nil]
    refine ne_nil_of_fits h (by simp [hlead]) (Or.inl ?_) hf
    rintro rfl
    exact hne rfl
  continues _ := by
    refine continues_of_sealed ?_ (sealed_blanks_append hf.isBlank sealed_nil)
    rcases run with _ | _ | _ <;> simp [spaceNode, isString]
  brackets _ hopens := by
    have hhead := head_of_opensArguments hf.isBlank (by simp) hopens
    simp at hhead
  line := by
    rintro rfl
    exact line_of_fits h hf
  reads taken left hsplit htaken := by
    subst hsplit
    have hspaced : startsSpaced (runNodes run ++ []) = run.isSome := startsSpaced_runNodes (by simp)
    rw [List.append_nil] at hspaced
    rw [hspaced] at htaken
    have hend : Spelled enclosure.mode
        (freshAfterAll (freshAfterAll (lead == .start) taken) left) [] [] := .nil
    obtain ⟨raw, hspelled, hcollapse⟩ := exists_spaces enclosure.readable
      (fun c hc => hf.isBlank c (by simp [hc])) (by simp) (by simp) (by simp) hend
    refine ⟨raw, hspelled, ?_⟩
    rintro before rfl
    rw [hcollapse]
    exact h.regained_nil hf htaken

/-- How the notation of a node begins. -/
structure Begins (mode : Mode) (node : Node) (c : Char) : Prop where
  not_blank : isBlank c = false
  not_percent : c ≠ '%'
  special : node.isString = false → isSpecial c = true
  takes : mode = .math → takesBlanks c = true → node.takesSpaceBefore = true

/-- What stands before a node, if it is taken along. -/
def TakenBefore (enclosure : Enclosure) (node : Node) (before : List Char) : Prop :=
  before = [] ∨ (enclosure.mode = .math ∧ node.takesSpaceBefore = true ∧
    ∀ c ∈ before, isBlank c = true)

theorem TakenBefore.takes {before : List Char} (h : TakenBefore enclosure node before) :
    Takes enclosure.mode before := by
  have hmode := enclosure.readable
  rcases h with rfl | ⟨hmath, -, hblank⟩
  · revert hmode
    cases enclosure.mode <;> simp [Takes]
  · rw [hmath]
    exact hblank

theorem TakenBefore.eq_nil {before : List Char} (h : TakenBefore enclosure node before)
    (hnot : node.takesSpaceBefore = false) : before = [] :=
  h.resolve_right fun htakes => by simp [hnot] at htakes

/-- The text is read as a node and as what is regained of the rest of its list. In math,
blanks before it may be read along with it. -/
def ReadsNode (enclosure : Enclosure) (node : Node) (rest : List Node) (text : List Char) : Prop :=
  ∃ node' raw, SamePrint node node'.normalize ∧
    (∀ fresh before, TakenBefore enclosure node before →
      Spelled enclosure.mode fresh (node' :: raw) (before ++ text)) ∧
    ∀ before, dropsSpace enclosure.inBody before = node.isEnvironmentLike →
      Regained enclosure node.isEnvironmentLike (leadAfter node) rest
        (collapseFrom enclosure.inBody before none (raw.map normalize))

/-- A node behind a joint, if it is no comment. -/
theorem jointText_cons {c : Char} {more : List Char} (hs : node.isSpace = false)
    (h : Joint enclosure lead run (directive node) dropsBefore node.isEnvironmentLike)
    (hf : (leadAt lead run (directive node)).Fits solid blanks)
    (hbegins : Begins enclosure.mode node c) (htext : text = c :: more)
    (hstring : ∀ content, node = .string content → content.toList ≠ [] ∧
      Continues (node :: rest) text)
    (hapart : enclosure.mode = .math → node.takesSpaceBefore = true → run = none)
    (hafter : ∀ lead : Lead, lead.afterAll (Token.ofNode node) = leadAfter node)
    (hreads : ReadsNode enclosure node rest text) :
    JointText enclosure dropsBefore lead (runNodes run ++ node :: rest) blanks text := by
  have hhead : ∀ d ∈ text.head?, isBlank d = false := by
    simpa [htext] using hbegins.not_blank
  have hother : node.isString = false → Sealed (blanks ++ text) := fun hnode =>
    sealed_blanks_append hf.isBlank (htext ▸ sealed_cons (hbegins.special hnode))
  refine ⟨hf.isBlank, hhead, fun _ _ => by simp [htext], ?_, ?_, ?_, ?_⟩
  · rintro rfl
    cases run with
    | some broken =>
      obtain ⟨b, bs, rfl⟩ := List.exists_cons_of_ne_nil
        (ne_nil_of_fits h (by decide) (Or.inl (by simp)) hf)
      refine continues_of_sealed ?_ (sealed_cons (isSpecial_of_isBlank (hf.isBlank b (by simp))))
      cases broken <;> simp [spaceNode, isString]
    | none =>
      cases hnode : node.isString with
      | false => exact continues_of_sealed (by simpa using hnode) (hother hnode)
      | true =>
        obtain ⟨content, rfl⟩ := exists_string hnode
        obtain rfl : blanks = [] := hf
        exact (hstring content rfl).2
  · intro hlead hopens
    have hbracket := head_of_opensArguments hf.isBlank hhead hopens
    have hrun : run ≠ some true := by
      rintro rfl
      exact not_opensArguments_of_isLines hhead (h.isLines hlead hf) hopens
    cases hnode : node.isString with
    | false =>
      obtain rfl : c = '[' := by simpa [htext] using hbracket
      exact absurd (hbegins.special hnode) (by decide)
    | true =>
      obtain ⟨content, rfl⟩ := exists_string hnode
      obtain ⟨hne, after, rfl, -⟩ := hstring content rfl
      obtain ⟨d, ds, hcontent⟩ := List.exists_cons_of_ne_nil hne
      have hfirst : opensArguments (.string content :: rest) = true := by
        simpa [opensArguments, leadingText, hcontent] using hbracket
      rcases run with _ | _ | _
      · exact hfirst
      · exact hfirst
      · exact absurd rfl hrun
  · rintro rfl
    exact line_of_fits h hf
  · intro taken left hsplit htaken
    subst hsplit
    rw [startsSpaced_runNodes (by simpa using hs)] at htaken
    obtain ⟨node', raw, hmade, hspelled, hrest⟩ := hreads
    have hleft : ∀ d ∈ left, isBlank d = true := fun d hd => hf.isBlank d (by simp [hd])
    have hcons : ∀ {before run}, collapseFrom enclosure.inBody before run
        ((node' :: raw).map normalize) = gap enclosure.inBody before run (some node'.normalize)
          ++ node'.normalize :: collapseFrom enclosure.inBody (some node'.normalize) none
            (raw.map normalize) := collapseFrom_cons hmade.isSpace
    have hmore := hrest (some node'.normalize) hmade.isEnvironmentLike
    by_cases htakes : enclosure.mode = .math ∧ node.takesSpaceBefore = true
    · -- the node takes all blanks along, and there is no space in the list
      refine ⟨node' :: raw, hspelled _ left (Or.inr ⟨htakes.1, htakes.2, hleft⟩), ?_⟩
      rintro before rfl
      have hnone : run.isSome = false := by simp [hapart htakes.1 htakes.2]
      rw [hcons]
      have hf' : (leadAt lead run (directive node)).Fits solid ((taken ++ left) ++ []) := by
        rwa [List.append_nil]
      exact h.regained_cons hmade hf' (Or.inr (Or.inr ⟨htakes.1, hnone, rfl⟩)) hafter hmore
    · obtain ⟨raw', hraw', hcollapse⟩ := exists_spaces enclosure.readable hleft hhead
        (fun hmath d hd => by
          obtain rfl : c = d := by simpa [htext] using hd
          simpa using mt (hbegins.takes hmath) fun ht => htakes ⟨hmath, ht⟩)
        (fun hpercent => absurd (by simpa [htext] using hpercent) hbegins.not_percent)
        (hspelled (freshAfterAll (freshAfterAll (lead == .start) taken) left) [] (Or.inl rfl))
      refine ⟨raw', hraw', ?_⟩
      rintro before rfl
      rw [hcollapse, hcons]
      exact h.regained_cons hmade hf htaken hafter hmore

end Steps

/-! ## Comments -/

section Comments

variable {enclosure : Enclosure} {dropsBefore : Bool} {lead : Lead} {run : Option Bool}
  {rest : List Node} {solid blanks blanks' text : List Char} {content : String} {sameline : Bool}

/-- Where no text stands on the line, it does not matter what is known of the line. -/
theorem alike_comment {lead : Lead} (h : lead.IsInline → sameline = false) :
    Alike lead lead (Token.ofNode (.comment content sameline))
      (Token.ofNode (.comment content false)) := by
  cases sameline with
  | false => exact .rfl
  | true =>
    have hlead : ¬ lead.IsInline := fun hinline => by simpa using h hinline
    refine ⟨?_, ?_⟩
    · simp [Token.ofNode, Token.chars, Lead.effects, Lead.effect, Lead.after, hlead]
    · simp [Token.ofNode, Lead.after, hlead]

/-- A comment takes its line ending along, unless a blank line follows. -/
theorem JointText.behind_comment (h : JointText enclosure false .line rest blanks text) :
    ∃ ending left, ending ++ left = blanks ∧ EndsComment ending (left ++ text) ∧
      ReadsRegained enclosure false .line rest (freshAfterAll false ending) (left ++ text) := by
  rcases h.line rfl with hline | hlines
  · have hcount := parbreakLength_append hline.isBlank h.head
    rw [hline.countLineEndings, if_neg (by decide)] at hcount
    obtain ⟨margin, rfl, hmargin⟩ := id hline
    refine ⟨['\n'], margin, rfl, Or.inl ⟨rfl, by simpa using hcount⟩, ?_⟩
    exact h.reads ['\n'] margin rfl (Or.inr (Or.inl ⟨rfl, rfl, Or.inr hline⟩))
  · have hcount := parbreakLength_append hlines.isBlank h.head
    rw [if_pos hlines.two_le_countLineEndings] at hcount
    obtain ⟨more, rfl, -⟩ := hlines
    refine ⟨[], _, rfl, Or.inr ⟨rfl, rfl, by rw [hcount]; simp⟩, ?_⟩
    exact h.reads [] _ rfl (Or.inl rfl)

/-- A comment is printed behind text on its line, at the start of the document, on a line of
its own or behind a blank line. -/
theorem Joint.comment_cases (h : Joint enclosure lead run
      (directive (.comment content sameline)) dropsBefore false)
    (hf : (leadAt lead run (directive (.comment content sameline))).Fits ('%' :: solid) blanks) :
    (lead = .tight ∧ sameline = true ∧ ∀ c ∈ blanks, LatexFormatter.isSpace c = true) ∨
      (lead = .start ∧ blanks = []) ∨
      (lead ≠ .start ∧ (lead = .tight → sameline = false) ∧ run ≠ some true ∧ IsLine blanks) ∨
      (lead ≠ .start ∧ run = some true ∧ IsLines blanks) := by
  have hnowrap : isWrappable ('%' :: solid) = false := rfl
  by_cases hstart : lead = .start
  · subst hstart
    refine Or.inr (Or.inl ⟨rfl, ?_⟩)
    rcases run with _ | _ | _ <;> cases sameline <;> exact hf
  · by_cases hrun : run = some true
    · subst hrun
      exact Or.inr (Or.inr (Or.inr ⟨hstart, rfl, h.isLines hstart hf⟩))
    · rcases h.lead_cases.resolve_left hstart with rfl | rfl
      · cases sameline with
        | true =>
          refine Or.inl ⟨rfl, rfl, ?_⟩
          rcases run with _ | _ | _
          · obtain rfl : blanks = [] := hf
            simp
          · rcases hf with rfl | ⟨hwrap, -⟩
            · simp [LatexFormatter.isSpace]
            · rw [hnowrap] at hwrap
              cases hwrap
          · exact absurd rfl hrun
        | false =>
          refine Or.inr (Or.inr (Or.inl ⟨hstart, fun _ => rfl, hrun, ?_⟩))
          rcases run with _ | _ | _
          · exact hf
          · exact hf
          · exact absurd rfl hrun
      · refine Or.inr (Or.inr (Or.inl ⟨hstart, by simp, hrun, ?_⟩))
        rcases run with _ | _ | _
        · cases sameline <;> exact hf
        · cases sameline <;> exact hf
        · exact absurd rfl hrun

/-- A comment and the space before it, and the rest of the list behind them. -/
theorem regained_comment {sameline' : Bool} {space found : List Node}
    (hspace : Alike lead lead
      (Token.ofNodes (runNodes run) ++ directive (.comment content sameline))
      (Token.ofNodes space ++ directive (.comment content sameline)))
    (hnode : Alike (lead.afterAll (Token.ofNodes space)) (lead.afterAll (Token.ofNodes space))
      (Token.ofNode (.comment content sameline)) (Token.ofNode (.comment content sameline')))
    (hs : SuitsAll .bare space) (hfirm : EndsFirm ('%' :: content.toList))
    (hrest : Regained enclosure false .line rest found) :
    Regained enclosure dropsBefore lead (runNodes run ++ .comment content sameline :: rest)
      (space ++ .comment content sameline' :: found) := by
  refine regained_append hspace hnode (suitsAll_append hs ⟨⟨by simp, fun _ => hfirm⟩, trivial⟩)
    (fun hblocks => ?_) ?_ hrest
  · have hitems := hblocks.blocks
    rcases run with _ | _ | _ <;> simp [allBreakAtBlocks, breaksAtBlocks, spaceNode] at hitems
  · rw [Lead.afterAll_append]
    cases sameline <;> simp [Token.ofNode, leadAfter, Lead.after] <;> rfl

/-- Where blanks are taken along by a comment, or none are there, no space is regained. -/
theorem readsRegained_comment_alone {fresh : Bool} {ending left more : List Char}
    (hspace : Alike lead lead
      (Token.ofNodes (runNodes run) ++ directive (.comment content sameline))
      (directive (.comment content sameline)))
    (hinline : lead.IsInline → sameline = false)
    (hc : ∀ c ∈ content.toList, isLineBreak c = false) (hfirm : EndsFirm ('%' :: content.toList))
    (hs : Seated fresh left false) (he : EndsComment ending more)
    (hrest : ReadsRegained enclosure false .line rest (freshAfterAll false ending) more) :
    ReadsRegained enclosure dropsBefore lead (runNodes run ++ .comment content sameline :: rest)
      fresh (left ++ ('%' :: content.toList ++ ending ++ more)) := by
  obtain ⟨raw, hspelled, hrest⟩ := hrest
  have hcomment : Spelled enclosure.mode fresh (.comment content false :: raw)
      (left ++ '%' :: content.toList ++ ending ++ more) :=
    .comment content false hc hs he hspelled
  refine ⟨.comment content false :: raw, by simpa using hcomment, ?_⟩
  rintro before -
  exact regained_comment hspace (alike_comment hinline) trivial hfirm (hrest _ rfl)

/-- Where blanks before a comment are read as space, they come to the same. -/
theorem Joint.readsRegained_comment {sameline' : Bool} {ending taken left more : List Char}
    (h : Joint enclosure lead run (directive (.comment content sameline)) dropsBefore false)
    (hf : (leadAt lead run (directive (.comment content sameline))).Fits solid (taken ++ left))
    (htaken : Taken enclosure lead run.isSome dropsBefore taken left)
    (hnode : ∀ space, lead.afterAll (Token.ofNodes (runNodes run) ++ directive (.comment content
        sameline)) = lead.afterAll (Token.ofNodes space ++ directive (.comment content sameline)) →
      Alike (lead.afterAll (Token.ofNodes space)) (lead.afterAll (Token.ofNodes space))
        (Token.ofNode (.comment content sameline)) (Token.ofNode (.comment content sameline')))
    (hc : ∀ c ∈ content.toList, isLineBreak c = false) (hfirm : EndsFirm ('%' :: content.toList))
    (hs : Seated (freshAfterAll (freshAfterAll (lead == .start) taken) left) [] sameline')
    (he : EndsComment ending more)
    (hspaces : left = [] ∨ enclosure.mode = .text ∧ IsLines left ∨
      freshAfterAll (lead == .start) taken = false ∧ ∀ c ∈ left, LatexFormatter.isSpace c = true)
    (hrest : ReadsRegained enclosure false .line rest (freshAfterAll false ending) more) :
    ReadsRegained enclosure dropsBefore lead (runNodes run ++ .comment content sameline :: rest)
      (freshAfterAll (lead == .start) taken)
      (left ++ ('%' :: content.toList ++ ending ++ more)) := by
  obtain ⟨raw, hspelled, hrest⟩ := hrest
  have hcomment : Spelled enclosure.mode (freshAfterAll (freshAfterAll (lead == .start) taken) left)
      (.comment content sameline' :: raw) ([] ++ '%' :: content.toList ++ ending ++ more) :=
    .comment content sameline' hc hs he hspelled
  obtain ⟨raw', hraw', hcollapse⟩ := exists_spaces enclosure.readable
    (fun c hmem => hf.isBlank c (by simp [hmem])) (by simp; decide) (fun _ => by simp; decide)
    (fun _ => hspaces) hcomment
  refine ⟨raw', hraw', ?_⟩
  rintro before rfl
  have hjoint : Joint enclosure lead run (directive (.comment content sameline))
      (dropsSpace enclosure.inBody before)
      (dropsSpace enclosure.inBody (some (.comment content sameline'))) := h
  have hgap := hjoint.alike_gap hf htaken
  rw [hcollapse, List.map_cons, collapseFrom_cons rfl]
  exact regained_comment hgap (hnode _ hgap.2) (suits_gap ..) hfirm (hrest _ rfl)

/-- A comment on a line of its own, with any of the blanks before it. -/
theorem seated_of_isLine {fresh spaced : Bool} {taken left : List Char}
    (htaken : Taken enclosure lead spaced dropsBefore taken left) (h : IsLine (taken ++ left)) :
    Seated (freshAfterAll fresh taken) left false := by
  have hsplit := h
  obtain ⟨margin, hmargin, hspaces⟩ := hsplit
  have hfresh : ∀ more, (∀ c ∈ more, LatexFormatter.isSpace c = true) →
      freshAfterAll fresh ('\n' :: more) = true := fun more hmore =>
    freshAfterAll_of_spaces true hmore
  rcases htaken with rfl | ⟨-, rfl, -⟩ | ⟨-, -, rfl⟩
  · exact Or.inr h
  · obtain rfl : left = margin := by simpa using hmargin
    exact Or.inl ⟨hfresh [] (by simp), hspaces⟩
  · rw [List.append_nil] at hmargin
    rw [hmargin]
    exact Or.inl ⟨hfresh margin hspaces, by simp⟩

/-- A comment behind a joint. -/
theorem jointText_comment
    (h : Joint enclosure lead run (directive (.comment content sameline)) dropsBefore false)
    (hf : (leadAt lead run (directive (.comment content sameline))).Fits
      ('%' :: content.toList) blanks)
    (hc : ∀ c ∈ content.toList, isLineBreak c = false) (hfirm : EndsFirm ('%' :: content.toList))
    (hrest : JointText enclosure false .line rest blanks' text) :
    JointText enclosure dropsBefore lead (runNodes run ++ .comment content sameline :: rest) blanks
      ('%' :: content.toList ++ (blanks' ++ text)) := by
  refine ⟨hf.isBlank, by simp; decide, fun _ _ => by simp, ?_, ?_, ?_, ?_⟩
  · rintro -
    refine continues_of_sealed ?_ (sealed_blanks_append hf.isBlank (sealed_cons (by decide)))
    rcases run with _ | _ | _ <;> simp [spaceNode, isString]
  · intro _ hopens
    have hhead := head_of_opensArguments hf.isBlank (by simp; decide) hopens
    simp at hhead
  · rintro rfl
    exact line_of_fits h hf
  · intro taken left hsplit htaken
    subst hsplit
    rw [startsSpaced_runNodes (by simp [Node.isSpace])] at htaken
    obtain ⟨ending, more, rfl, hending, hmore⟩ := hrest.behind_comment
    have hwhole : left ++ ('%' :: content.toList ++ (ending ++ more ++ text))
        = left ++ ('%' :: content.toList ++ ending ++ (more ++ text)) := by simp
    rw [hwhole]
    rcases h.comment_cases hf with ⟨rfl, rfl, hspaces⟩ | ⟨rfl, hnil⟩ |
      ⟨hlead, htight, hrun, hline⟩ | ⟨hlead, rfl, hlines⟩
    · -- on the line of the text before it
      have hfresh : ∀ cs, (∀ c ∈ cs, c ∈ taken ++ left) → freshAfterAll false cs = false :=
        fun cs hcs => freshAfterAll_of_spaces false fun c hmem => hspaces c (hcs c hmem)
      have htakenfresh := hfresh taken fun c hmem => by simp [hmem]
      refine h.readsRegained_comment hf htaken (fun _ _ => .rfl) hc hfirm ⟨rfl, ?_⟩ hending
        (Or.inr (Or.inr ⟨htakenfresh, fun c hmem => hspaces c (by simp [hmem])⟩)) hmore
      show freshAfterAll (freshAfterAll false taken) left = false
      rw [htakenfresh]
      exact hfresh left fun c hmem => by simp [hmem]
    · -- at the start of the document
      obtain ⟨rfl, rfl⟩ := List.append_eq_nil_iff.1 hnil
      have hspace : Alike .start .start
          (Token.ofNodes (runNodes run) ++ directive (.comment content sameline))
          (Token.ofNodes [] ++ directive (.comment content sameline)) :=
        alike_of_start run (Or.inl rfl)
      exact readsRegained_comment_alone hspace (by simp [Lead.IsInline]) hc hfirm
        (Or.inl ⟨rfl, by simp⟩) hending hmore
    · -- on a line of its own
      have hother : lead = .tight ∨ lead = .line := h.lead_cases.resolve_left hlead
      have hspace : Alike lead lead
          (Token.ofNodes (runNodes run) ++ directive (.comment content sameline))
          (Token.ofNodes [] ++ directive (.comment content sameline)) :=
        alike_of_line hother hrun (fun hl => by simp [directive, htight hl])
          (by cases sameline <;> simp [directive]) (Or.inl rfl)
      refine readsRegained_comment_alone hspace (fun hinline => htight ?_) hc hfirm
        (seated_of_isLine htaken hline) hending hmore
      rcases hother with rfl | rfl
      · rfl
      · simp [Lead.IsInline] at hinline
    · -- behind a blank line
      obtain rfl : taken = [] := by
        rcases htaken with rfl | ⟨-, -, hdrops | hline⟩ | ⟨-, hrun, -⟩
        · rfl
        · simpa using h.before hdrops
        · have hcount := hlines.two_le_countLineEndings
          rw [hline.countLineEndings] at hcount
          exact absurd hcount (by decide)
        · simp at hrun
      refine h.readsRegained_comment hf htaken
        (fun space hspace => alike_comment fun hinline => ?_) hc hfirm
        (Or.inl ⟨?_, by simp⟩) hending (Or.inr (Or.inl ⟨h.text_of_break, hlines⟩)) hmore
      · cases sameline with
        | false => rfl
        | true =>
          have hparagraph : lead.afterAll (Token.ofNodes space) = .paragraph := by
            have hleft :
                lead.afterAll (Token.ofNodes (runNodes (some true)) ++ []) = .paragraph := by
              rcases h.lead_cases.resolve_left hlead with rfl | rfl <;> rfl
            simpa [directive] using hspace.symm.trans hleft
          rw [hparagraph] at hinline
          simp [Lead.IsInline] at hinline
      · obtain ⟨rest, rfl, hblank, -⟩ := hlines
        exact freshAfterAll_true hblank

end Comments

end LatexFormatter
