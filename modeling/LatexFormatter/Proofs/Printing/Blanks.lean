import LatexFormatter.Proofs.Printing.Trailing
import LatexFormatter.Proofs.Printing.Wrapping

/-
  Checking what was formatted. No line but the last of a formatted text ends in a
  blank, unless literal text or the name of an environment has such a line in it,
  and how the tree ends tells whether the last line does: a space at the end of a
  text is printed, and so is a control space (`format_trims_lines`). A text that
  ends in a blank is formatted to one that ends in a blank, which checking then
  reports again (`format_keeps_last_blank`).
-/

namespace LatexFormatter

/-! ## Counting the notes -/

theorem countP_note_blanksNotes (lines : List Line) :
    (blanksNotes lines).countP (·.severity == .note) = lines.countP Line.endsBlank := by
  have hnote : ∀ note ∈ blanksNotes lines, (note.severity == .note) = true := by
    intro note hnote
    obtain ⟨entry, -, rfl⟩ := List.mem_map.1 hnote
    rfl
  calc (blanksNotes lines).countP (·.severity == .note)
      = (blanksNotes lines).length := List.countP_eq_length.2 hnote
    _ = lines.zipIdx.countP (Line.endsBlank ∘ Prod.fst) := by
        rw [blanksNotes, List.length_map, ← List.countP_eq_length_filter]
        rfl
    _ = lines.countP Line.endsBlank := by rw [← List.countP_map, List.zipIdx_map_fst]

theorem notes_check (source : String) :
    (check source).notes = (linesOf source.toList).countP Line.endsBlank := by
  rw [← countP_note_blanksNotes]
  rcases check_cases source with ⟨-, -, hcheck, -⟩ | ⟨error, -, hcheck, -⟩
  · simp only [hcheck, CheckReport.notes, CheckReport.count]
  · simp [hcheck, CheckReport.notes, CheckReport.count, Diagnostic.ofSyntaxError, Diagnostic.pin]

/-- A line that ends does not end in a blank. -/
theorem LinesTrimmed.endsBlank_eq_false {text ending rest : List Char}
    (h : LinesTrimmed (text ++ (ending ++ rest))) (hending : EndsLine ending rest) :
    Line.endsBlank ⟨text, ending⟩ = false := by
  obtain ⟨-, -, hjoint⟩ := List.isChain_append.1 h
  obtain ⟨d, hd, hbreak⟩ : ∃ d, (ending ++ rest).head? = some d ∧ isLineBreak d = true := by
    rcases hending with rfl | rfl | ⟨rfl, -⟩ <;> exact ⟨_, rfl, rfl⟩
  cases hlast : text.getLast? with
  | none => simp [Line.endsBlank, hlast]
  | some c =>
    cases hspace : isSpace c with
    | false => simp [Line.endsBlank, hlast, hspace]
    | true => simp [hjoint c hlast d hd hspace] at hbreak

/-- An ending is no blank, so only what follows it decides. -/
theorem EndsLine.any_getLast? {ending rest : List Char} (h : EndsLine ending rest)
    (text : List Char) :
    (text ++ (ending ++ rest)).getLast?.any isSpace = rest.getLast?.any isSpace := by
  cases hlast : rest.getLast? with
  | some c => simp [List.getLast?_append, hlast]
  | none =>
    rw [List.getLast?_eq_none_iff.1 hlast]
    rcases h with rfl | rfl | ⟨rfl, -⟩ <;> simp [List.getLast?_append, isSpace]

/-- In a trimmed text, one line at most ends in a blank, the last. -/
theorem Lined.countP_endsBlank {cs : List Char} {lines : List Line} (hlined : Lined cs lines)
    (h : LinesTrimmed cs) :
    lines.countP Line.endsBlank = if cs.getLast?.any isSpace then 1 else 0 := by
  induction hlined with
  | last htext => exact List.countP_singleton
  | cons htext hending hrest ih =>
    have hkept : LinesTrimmed _ := h.right_of_append.right_of_append
    rw [List.countP_cons_of_neg (by simp [h.endsBlank_eq_false hending]), ih hkept,
      hending.any_getLast?]

/-! ## The end of a text -/

open Node

/-- Whether the text that is printed for top-level nodes, the last of which comes
first, ends in a blank. -/
def endsInBlank : List Node → Bool
  | .whitespace :: .comment _ _ :: _ => false
  | .whitespace :: _ :: _ => true
  | .command name none :: _ => name == " " || name == "\t"
  | _ => false

theorem any_getLast?_of_solid {cs : List Char} (h : ∀ c ∈ cs, isSpace c = false) :
    cs.getLast?.any isSpace = false := by
  cases hlast : cs.getLast? with
  | none => rfl
  | some c => exact h c (List.mem_of_getLast? hlast)

theorem any_getLast?_command {name : String} (h : IsControlName name) :
    ('\\' :: name.toList).getLast?.any isSpace = (name == " " || name == "\t") := by
  have hsame : ∀ other : String, (name == other) = (name.toList == other.toList) := by
    intro other
    rw [Bool.eq_iff_iff, beq_iff_eq, beq_iff_eq, String.toList_inj]
  rw [hsame, hsame]
  rcases h with ⟨-, hletters, -⟩ | ⟨c, hname, -⟩
  · have hsolid : ∀ c ∈ '\\' :: name.toList, isSpace c = false :=
      List.forall_mem_cons.2 ⟨rfl, fun c hc => isSpace_of_isLetter (hletters c hc)⟩
    have hother : ∀ c, isSpace c = true → (name.toList == [c]) = false := by
      intro c hc
      rw [beq_eq_false_iff_ne]
      intro hname
      simp [hsolid c (by simp [hname])] at hc
    rw [any_getLast?_of_solid hsolid]
    exact (congrArg₂ (· || ·) (hother ' ' rfl) (hother '\t' rfl)).symm
  · simp [hname, isSpace]

theorem isSpace_singleChar? {base : Node} {c : Char} (h : base.Everywhere Plain)
    (hsingle : base.singleChar? = some c) : isSpace c = false := by
  obtain ⟨content, hcontent, rfl | rfl⟩ := singleChar?_cases hsingle
  · exact isSpace_of_isBlank_eq_false (h.2 c (by simp [hcontent]))
  · exact isSpace_of_isBlank_eq_false (h.2.1.2 c (by simp [hcontent]))

theorem any_closing? {node : Node} {written : List Char} (h : node.Everywhere Plain)
    (hclosing : node.closing? = some written) :
    written.getLast?.any isSpace = endsInBlank [node] := by
  cases node with
  | string content =>
    cases hclosing
    exact any_getLast?_of_solid fun c hc => isSpace_of_isBlank_eq_false (h.2 c hc)
  | command name args =>
    cases args with
    | none =>
      cases hclosing
      exact any_getLast?_command h.1
    | some items =>
      cases hclosing
      rfl
  | environment name args body | mathEnvironment name body =>
    cases hclosing
    rw [closingTag, List.getLast?_concat]
    rfl
  | inlineMath items | displayMath items | group items | arguments items =>
    cases hclosing
    rfl
  | script mark base =>
    cases base with
    | none =>
      cases hclosing
      cases mark <;> rfl
    | some base =>
      simp only [Node.closing?] at hclosing
      cases hsingle : base.singleChar? with
      | some c =>
        rw [hsingle] at hclosing
        cases hclosing
        simp [endsInBlank, isSpace_singleChar? h.2 hsingle]
      | none =>
        rw [hsingle] at hclosing
        cases hclosing
        rfl
  | list _ | whitespace | parbreak | verbatim _ | verb _ _ | commentEnvironment _
  | comment _ _ => cases hclosing

theorem endsInBlank_cons {node : Node} {written : List Char} (h : node.closing? = some written)
    (rest : List Node) : endsInBlank (node :: rest) = endsInBlank [node] := by
  cases node with
  | whitespace => cases h
  | command name args => cases args <;> rfl
  | _ => rfl

theorem any_lastPrinted? {items : List Node} (h : EverywhereAll Plain items) :
    (lastPrinted? items).any isSpace = endsInBlank items := by
  cases items with
  | nil => rfl
  | cons node rest =>
    cases hspace : node.isSpace with
    | true =>
      rcases isSpace_iff.1 hspace with rfl | rfl
      · cases rest with
        | nil => rfl
        | cons other rest => cases other <;> rfl
      · cases rest <;> rfl
    | false =>
      rcases h.1.here.solid_cases hspace with ⟨content, sameline, rfl⟩ | ⟨written, hclosing, -⟩
      · rfl
      · rw [lastPrinted?_cons hclosing, endsInBlank_cons hclosing, any_closing? h.1 hclosing]

/-! ## Trees that are read -/

/-- Text that is kept as it stands. -/
def Node.isLiteral : Node → Bool
  | verbatim _ | verb _ _ | commentEnvironment _ => true
  | _ => false

/-- If the node is an environment, no line of its name but the last ends in a
blank. -/
def Node.NameTrimmed : Node → Prop
  | environment name _ _ => LinesTrimmed name.toList
  | _ => True

instance : DecidablePred Node.NameTrimmed
  | .environment name _ _ => inferInstanceAs (Decidable (LinesTrimmed name.toList))
  | .list _ | .string _ | .whitespace | .parbreak | .command _ _ | .mathEnvironment _ _
  | .inlineMath _ | .displayMath _ | .group _ | .script _ _ | .verbatim _ | .verb _ _
  | .commentEnvironment _ | .comment _ _ | .arguments _ => inferInstanceAs (Decidable True)

theorem plain_of_wellFormed {node : Node} (h : WellFormed node) (hblankless : Blankless node)
    (hliteral : node.isLiteral = false) (hname : node.NameTrimmed) : node.Plain := by
  cases node with
  | string content => exact ⟨h, hblankless⟩
  | command name args => exact h.1
  | environment name args body => exact hname
  | mathEnvironment name body =>
    have hnames : ∀ name ∈ mathEnvironments, LinesTrimmed name.toList := by decide
    exact hnames name (by simpa [isMathEnvironment] using h.2.1)
  | comment content sameline => exact h
  | whitespace | parbreak | inlineMath _ | displayMath _ | group _ | script _ _ | arguments _ =>
    trivial
  | list _ => exact h.elim
  | verbatim _ | verb _ _ | commentEnvironment _ => cases hliteral

theorem survives_plain : Survives Plain where
  whitespace := trivial
  parbreak := trivial
  tidy node h := by cases node <;> exact h

/-- What is printed for a text that was read. -/
theorem exists_plain {source : String} {tree : Node} (hparse : parse source = .ok tree)
    (hliteral : ∀ visit ∈ tree.walk, visit.node.isLiteral = false)
    (hnames : ∀ visit ∈ tree.walk, visit.node.NameTrimmed) :
    ∃ items, parseNormalized source = .ok (.list items) ∧ EverywhereAll Plain items ∧
      Spread false none items := by
  obtain ⟨nodes, rfl, hread⟩ := everywhere_of_parse hparse
  have hplain : EverywhereAll Plain nodes := by
    obtain ⟨-, hliteral⟩ : (list nodes).Everywhere (fun node => node.isLiteral = false) :=
      everywhere_iff_walk.2 hliteral
    obtain ⟨-, hnames⟩ : (list nodes).Everywhere NameTrimmed := everywhere_iff_walk.2 hnames
    rw [everywhereAll_iff] at hread hliteral hnames ⊢
    intro node hnode
    have hread := everywhere_iff_walk.1 (hread node hnode)
    have hliteral := everywhere_iff_walk.1 (hliteral node hnode)
    have hnames := everywhere_iff_walk.1 (hnames node hnode)
    exact everywhere_iff_walk.2 fun visit hvisit => plain_of_wellFormed (hread visit hvisit).1
      (hread visit hvisit).2 (hliteral visit hvisit) (hnames visit hvisit)
  refine ⟨collapse false (tidyAll nodes).1, by rw [parseNormalized, hparse]; rfl,
    everywhereAll_collapse survives_plain false (everywhere_tidyAll survives_plain nodes hplain),
    ?_⟩
  exact (normal_tidy (.list nodes)).1

theorem notes_check_of_trimmed {out : String} {items : List Node}
    (htrimmed : LinesTrimmed out.toList)
    (hlast : out.toList.getLast? = lastPrinted? items.reverse) (h : EverywhereAll Plain items) :
    (check out).notes = if endsInBlank items.reverse then 1 else 0 := by
  have hreverse : EverywhereAll Plain items.reverse :=
    everywhereAll_iff.2 fun node hnode => everywhereAll_iff.1 h node (by simpa using hnode)
  rw [notes_check, (lined_linesOf out.toList).countP_endsBlank htrimmed, hlast,
    any_lastPrinted? hreverse]

/-- No line but the last of what is printed ends in a blank, and checking reports
just the last one, where the tree ends in a space or in a control space. -/
theorem format_trims_lines {source : String} {tree : Node} (hparse : parse source = .ok tree)
    (hliteral : ∀ visit ∈ tree.walk, visit.node.isLiteral = false)
    (hnames : ∀ visit ∈ tree.walk, visit.node.NameTrimmed) :
    ∃ items, parseNormalized source = .ok (.list items) ∧
      (∀ options : TextOptions, options.validate = .ok () → ∃ out,
        formatText options (.text source) = .ok out ∧ LinesTrimmed out.toList ∧
          (check out).notes = if endsInBlank items.reverse then 1 else 0) ∧
      (∀ options : LayoutOptions, options.validate = .ok () → ∃ out,
        formatLayout options (.text source) = .ok out ∧ LinesTrimmed out.toList ∧
          (check out).notes = if endsInBlank items.reverse then 1 else 0) := by
  obtain ⟨items, hread, hplain, hspread⟩ := exists_plain hparse hliteral hnames
  have hnodes : ∀ node ∈ items, node.Plain := fun node hnode =>
    (everywhereAll_iff.1 hplain node hnode).here
  refine ⟨items, hread, fun options hvalid => ?_, fun options hvalid => ?_⟩
  · have htrimmed := trimmed_printTokens options hplain
    have hlast := (Token.endsByRule_printTokens options).eq_lastPrinted? hnodes hspread
    exact ⟨_, formatText_of_read hvalid hread, htrimmed,
      notes_check_of_trimmed htrimmed hlast hplain⟩
  · have htrimmed := trimmed_printDoc options hplain
    have hlast := (Doc.endsByRule_printDoc options).eq_lastPrinted? hnodes hspread
    exact ⟨_, formatLayout_of_read hvalid hread, htrimmed,
      notes_check_of_trimmed htrimmed hlast hplain⟩

/-- Blanks at the end of every line but the last: after text, arguments, a comment,
an opening tag and a formula. -/
def frayedText : String := "a \t\n\\b[c, d] \n% e \n\\begin\x7bq\x7d \nf$x $ \n\\end\x7bq\x7d"

def frayedNodes : List Node :=
  [.string "a", .whitespace,
    .command "b" (some [.string "c", .string ",", .whitespace, .string "d"]),
    .comment " e " false,
    .environment "q" none
      [.whitespace, .string "f", .inlineMath [.string "x", .whitespace], .whitespace]]

theorem format_trims_lines_frayed :
    parse frayedText = .ok (.list frayedNodes) ∧ (check frayedText).notes = 5 ∧
      (∀ visit ∈ (Node.list frayedNodes).walk, visit.node.isLiteral = false) ∧
      (∀ visit ∈ (Node.list frayedNodes).walk, visit.node.NameTrimmed) ∧
      (∃ out, formatText ⟨3, 4⟩ (.text frayedText) = .ok out ∧ (check out).notes = 0) ∧
      ∃ out, formatLayout ⟨3, 4, false, ""⟩ (.text frayedText) = .ok out ∧
        (check out).notes = 0 := by
  have hparse : parse frayedText = .ok (.list frayedNodes) := by
    unfold parse readDocument
    rw [readDocumentBy_cached]
    rfl
  have hliteral : ∀ visit ∈ (Node.list frayedNodes).walk, visit.node.isLiteral = false := by decide
  have hnames : ∀ visit ∈ (Node.list frayedNodes).walk, visit.node.NameTrimmed := by decide
  obtain ⟨items, hread, htext, hlayout⟩ := format_trims_lines hparse hliteral hnames
  have hend : endsInBlank items.reverse = false := by
    rw [parseNormalized, hparse] at hread
    cases hread
    rfl
  simp only [hend, Bool.false_eq_true, if_false] at htext hlayout
  obtain ⟨out, hout, -, hnotes⟩ := htext ⟨3, 4⟩ rfl
  obtain ⟨out', hout', -, hnotes'⟩ := hlayout ⟨3, 4, false, ""⟩ rfl
  refine ⟨hparse, ?_, hliteral, hnames, ⟨out, hout, hnotes⟩, out', hout', hnotes'⟩
  rw [notes_check]
  decide

/-- The blank at the end of the only line, which checking announces to be removed,
is printed. -/
theorem format_keeps_last_blank :
    parse "a \n" = .ok (.list [.string "a", .whitespace]) ∧ (check "a \n").notes = 1 ∧
      formatText {} (.text "a \n") = .ok "a " ∧ formatLayout {} (.text "a \n") = .ok "a " ∧
      (check "a ").notes = 1 := by
  have hparse : parse "a \n" = .ok (.list [.string "a", .whitespace]) := by
    unfold parse readDocument
    rw [readDocumentBy_cached]
    rfl
  have hread : parseNormalized "a \n" = .ok (.list [.string "a", .whitespace]) := by
    rw [parseNormalized, hparse]
    rfl
  refine ⟨hparse, by rw [notes_check]; decide, ?_, ?_, by rw [notes_check]; decide⟩
  · rw [formatText_of_read rfl hread]
    decide +kernel
  · rw [formatLayout_of_read rfl hread]
    decide +kernel

end LatexFormatter
