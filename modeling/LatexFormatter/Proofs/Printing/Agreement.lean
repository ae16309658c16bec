import LatexFormatter.Proofs.Printing.Unforced
import LatexFormatter.Proofs.Printing.Parallel
import LatexFormatter.Proofs.Printing.Printout

/-
  The two printers agree when nothing wraps. On a page that is wide enough the
  token printer never wraps and the layout engine prints everything flat, so
  each of them writes the strands of one and the same document without
  wrapping, and there is only one way to do that (`printers_agree`).

  How wide is wide enough depends on the tree and on the width of a tab alone
  (`Node.ampleWidth`).
-/

namespace LatexFormatter

open Doc Token Node

/-! ## Which trees -/

namespace Node

theorem newline_ne_singleChar {base : Node} {c : Char} {spaced : Bool}
    (h : base.singleChar? = some c) (hr : base.Regular spaced) : '\n' ≠ c := by
  have hc : ∀ content : String, content.toList = [c] → '\n' ∉ content.toList → '\n' ≠ c := by
    intro content hcontent hmem
    rw [hcontent] at hmem
    exact List.ne_of_not_mem_cons hmem
  obtain ⟨content, hcontent, rfl | rfl⟩ := singleChar?_cases h
  · exact hc content hcontent hr
  · exact hc content hcontent hr.2.1

mutual

/-- A regular tree that breaks no line. -/
theorem suits_quiet : ∀ node : Node, node.Regular true → node.breaksLine = false →
    node.Suits .quiet
  | list _ | arguments _ => fun hr => hr.elim
  | string _ => fun hr _ => hr
  | whitespace => fun _ _ => trivial
  | command name args => fun hr hl => by
    simp only [breaksLine, Bool.or_eq_false_iff] at hl
    refine ⟨fun _ => hl.1.1, ?_, suitsArgs_quiet args hr hl.2⟩
    simpa [Care.Admits] using hl.1.2
  | inlineMath content | group content => fun hr hl =>
    ⟨fun _ => hr.1 rfl, suitsAll_quiet content hr.2 hl⟩
  | script _ base => fun hr hl => suitsBase_quiet base hr hl
  | verb _ _ => fun _ hl => by simpa [breaksLine, Suits, Care.Admits] using hl
  | environment _ _ _ | mathEnvironment _ _ | displayMath _ | parbreak | verbatim _
  | commentEnvironment _ | comment _ _ => fun _ hl => by simp [breaksLine] at hl

theorem suitsAll_quiet : ∀ items : List Node, RegularAll true items →
    anyBreaksLine items = false → SuitsAll .quiet items
  | [] => fun _ _ => trivial
  | node :: rest => fun hr hl => by
    simp only [anyBreaksLine, Bool.or_eq_false_iff] at hl
    exact ⟨suits_quiet node hr.1 hl.1, suitsAll_quiet rest hr.2 hl.2⟩

theorem suitsArgs_quiet : ∀ args : Option (List Node), RegularArgs true args →
    argsBreakLine args = false → SuitsArgs .quiet args
  | none => fun _ _ => trivial
  | some content => fun hr hl =>
    ⟨by simp, fun _ => hr.1 rfl, suitsAll_quiet content hr.2 hl⟩

theorem suitsBase_quiet : ∀ base : Option Node, RegularBase true base →
    baseBreaksLine base = false → SuitsBase .quiet base
  | none => fun _ _ => trivial
  | some base => fun hr hl => by
    refine ⟨fun c hc => ?_, suits_quiet base hr hl⟩
    simpa [Care.Admits] using newline_ne_singleChar hc hr

end

theorem suitsArgs_calm {args : Option (List Node)} (hr : RegularArgs true args)
    (hl : argsBreakLine args = false) : SuitsArgs .calm args := by
  have hquiet := suitsArgs_quiet args hr hl
  cases args with
  | none => trivial
  | some content => exact ⟨by simp, fun _ => hr.1 rfl, hquiet.2.2⟩

mutual

/-- A regular tree whose arguments break no lines. -/
theorem suits_calm : ∀ node : Node, node.Regular true → node.hasLoudArguments = false →
    node.Suits .calm
  | list _ | arguments _ => fun hr => hr.elim
  | string _ | whitespace | verb _ _ => fun _ _ => trivial
  | parbreak | verbatim _ | commentEnvironment _ | comment _ _ => fun _ _ => by simp [Suits]
  | command _ args => fun hr hl => ⟨by simp, trivial, suitsArgs_calm hr hl⟩
  | environment _ args body => fun hr hl => by
    simp only [hasLoudArguments, Bool.or_eq_false_iff] at hl
    exact ⟨by simp, suitsArgs_calm hr.1 hl.1, fun _ => hr.2.1 rfl, suitsAll_calm body hr.2.2 hl.2⟩
  | mathEnvironment _ content | displayMath content => fun hr hl =>
    ⟨by simp, fun _ => hr.1 rfl, suitsAll_calm content hr.2 hl⟩
  | inlineMath content | group content => fun hr hl =>
    ⟨fun _ => hr.1 rfl, suitsAll_calm content hr.2 hl⟩
  | script _ base => fun hr hl => suitsBase_calm base hr hl

theorem suitsAll_calm : ∀ items : List Node, RegularAll true items →
    anyLoudArguments items = false → SuitsAll .calm items
  | [] => fun _ _ => trivial
  | node :: rest => fun hr hl => by
    simp only [anyLoudArguments, Bool.or_eq_false_iff] at hl
    exact ⟨suits_calm node hr.1 hl.1, suitsAll_calm rest hr.2 hl.2⟩

theorem suitsBase_calm : ∀ base : Option Node, RegularBase true base →
    baseLoudArguments base = false → SuitsBase .calm base
  | none => fun _ _ => trivial
  | some base => fun hr hl => ⟨fun _ _ => trivial, suits_calm base hr hl⟩

end

end Node

/-! ## How wide is wide enough -/

namespace Token

/-- The columns that tokens can bring a line to, apart from its indentation. -/
def span : List Token → Nat
  | [] => 0
  | token :: rest => token.content.length + 1 + span rest

@[simp] theorem span_cons (token : Token) (rest : List Token) :
    span (token :: rest) = token.content.length + 1 + span rest := rfl

/-- The columns that a token stream can bring a line to. -/
def reach (tabWidth : Nat) (tokens : List Token) : Nat := tokens.length * tabWidth + span tokens

theorem lengthWith_le (content : List Char) (page : Page) :
    page.lengthWith content ≤ page.lineLength + content.length :=
  unsignedWord_le ..

theorem lineLength_put (content : List Char) (page : Page) :
    (page.put content).lineLength ≤ page.lineLength + content.length := by
  simp only [Page.put]
  split
  · have hlength := (List.takeWhile_sublist (l := content.reverse) (· != '\n')).length_le
    rw [List.length_reverse] at hlength
    omega
  · exact lengthWith_le content page

/-- The page has at most one level of indentation more than another, and its line is
longer by the given columns at most, or has just been started. -/
def Page.Beyond (options : TextOptions) (columns : Nat) (page next : Page) : Prop :=
  next.indent ≤ page.indent + 1 ∧
    (next.lineLength ≤ page.lineLength + columns ∨
      next.lineLength ≤ page.indent * options.tabWidth)

theorem Page.beyond_self (options : TextOptions) (columns : Nat) (page : Page) :
    page.Beyond options columns page :=
  ⟨Nat.le_succ _, Or.inl (Nat.le_add_right _ _)⟩

/-- However many lines further down, and whatever the page ends in then. -/
theorem Page.beyond_breakLines (options : TextOptions) (columns count : Nat) (ending : Ending)
    (page : Page) :
    page.Beyond options columns { page.breakLines options count with ending := ending } :=
  ⟨Nat.le_succ _, Or.inr (unsignedWord_le ..)⟩

theorem Page.beyond_leaveParagraph (options : TextOptions) (columns : Nat) (page : Page) :
    page.Beyond options columns (page.leaveParagraph options) := by
  unfold Page.leaveParagraph
  split
  · exact page.beyond_self options columns
  · exact page.beyond_breakLines options columns 1 _
  · exact page.beyond_breakLines options columns 2 _

/-- How far one token goes if it is not wrapped. -/
theorem Page.beyond_stepBy (options : TextOptions) (page : Page) (token : Token) :
    page.Beyond options (token.content.length + 1)
      (page.stepBy options (fun _ _ => false) token) := by
  cases token with
  | text content =>
    have hput := lineLength_put content.toList page
    refine ⟨Nat.le_succ _, Or.inl ?_⟩
    simp only [Page.stepBy, Bool.false_eq_true, if_false, Token.content]
    omega
  | space =>
    simp only [Page.stepBy, Page.step]
    split
    · exact ⟨Nat.le_succ _, Or.inl (lengthWith_le [' '] page)⟩
    · exact page.beyond_self options _
  | indent => exact ⟨Nat.le_refl _, Or.inl (Nat.le_add_right _ _)⟩
  | endIndent => exact ⟨by simp [Page.stepBy, Page.step]; omega, Or.inl (Nat.le_add_right _ _)⟩
  | noWrap => exact ⟨Nat.le_succ _, Or.inl (Nat.le_add_right _ _)⟩
  | endNoWrap => exact ⟨Nat.le_succ _, Or.inl (Nat.le_add_right _ _)⟩
  | newline => exact page.beyond_breakLines options _ 1 _
  | ensureNewline =>
    simp only [Page.stepBy, Page.step]
    split
    · exact page.beyond_breakLines options _ 1 _
    · exact page.beyond_self options _
  | preferParagraph =>
    simp only [Page.stepBy, Page.step]
    split
    · exact page.beyond_breakLines options _ 2 _
    · exact page.beyond_self options _
  | paragraphBreak =>
    simp only [Page.stepBy, Page.step]
    split
    · exact page.beyond_self options _
    · exact page.beyond_leaveParagraph options _
  | ensureParagraph =>
    simp only [Page.stepBy, Page.step]
    split
    · exact page.beyond_leaveParagraph options _
    · exact page.beyond_self options _

/-- Tokens that leave room on the line are never wrapped. -/
theorem foldl_step_eq_layBy (options : TextOptions) (levels : Nat) (tokens : List Token)
    (page : Page) (hindent : page.indent + tokens.length ≤ levels)
    (hline : page.lineLength + span tokens ≤ options.maxWidth)
    (hfresh : levels * options.tabWidth + span tokens ≤ options.maxWidth) :
    tokens.foldl (Page.step options) page = page.layBy options (fun _ _ => false) tokens := by
  induction tokens generalizing page with
  | nil => rfl
  | cons token rest ih =>
    simp only [span_cons, List.length_cons] at hindent hline hfresh
    -- only a text may be wrapped, and here it ends within the width
    have hstep : page.step options token = page.stepBy options (fun _ _ => false) token := by
      cases token with
      | text content =>
        have hroom : page.wraps options content.toList = false := by
          simp only [Token.content] at hline
          have hlength := lengthWith_le content.toList page
          have hfits : ¬options.maxWidth < page.lengthWith content.toList := by omega
          simp [Page.wraps, hfits]
        simp [Page.step, Page.stepBy, Page.write, hroom]
      | _ => rfl
    obtain ⟨hlevel, hlength⟩ := page.beyond_stepBy options token
    have htabs : page.indent * options.tabWidth ≤ levels * options.tabWidth :=
      Nat.mul_le_mul_right _ (by omega)
    rw [List.foldl_cons, Page.layBy_cons, hstep]
    exact ih _ (by omega) (by omega) (by omega)

theorem layOut_eq_never (options : TextOptions) (tokens : List Token)
    (h : reach options.tabWidth tokens ≤ options.maxWidth) :
    layOut options tokens = ({} : Page).layBy options (fun _ _ => false) tokens := by
  unfold reach at h
  exact foldl_step_eq_layBy options tokens.length tokens {} (by simp) (by simp; omega) h

end Token

/-! ## Strands do not depend on the width -/

namespace Doc

/-- Options that indent alike. -/
def IndentAlike (options other : LayoutOptions) : Prop :=
  options.tabWidth = other.tabWidth ∧ options.useTabs = other.useTabs

theorem IndentAlike.add {options other : LayoutOptions} (h : IndentAlike options other) :
    IndentWriter.add options = IndentWriter.add other := by
  funext writer part
  cases part <;>
    simp [IndentWriter.add, IndentWriter.flush, IndentWriter.addTabs, h.1, h.2]

theorem IndentAlike.push {options other : LayoutOptions} (h : IndentAlike options other)
    (part : IndentPart) (indentation : Indentation) :
    indentation.push options part = indentation.push other part := by
  simp only [Indentation.push, Margin.ofParts, h.add]

theorem IndentAlike.align {options other : LayoutOptions} (h : IndentAlike options other)
    (alignment : Alignment) (indentation : Indentation) :
    indentation.align options alignment = indentation.align other alignment := by
  cases alignment <;>
    simp only [Indentation.align, Indentation.pop, Margin.ofParts, h.add, h.push]

mutual

theorem strands_alike {options other : LayoutOptions} (h : IndentAlike options other) :
    ∀ (doc : Doc) (indentation : Indentation),
    strands options indentation doc = strands other indentation doc
  | text _, _ | line _ _ _, _ | breakParent, _ | ifBreak _ _, _ | lineSuffix _, _
  | lineSuffixBoundary, _ | trim, _ | cursor, _ => rfl
  | concat parts, i => by simpa [strands] using strandsAll_alike h parts i
  | fill parts, i => by simpa [strands] using strandsAll_alike h parts i
  | group contents _ _, i => by simpa [strands] using strands_alike h contents i
  | indent contents, i => by
    simp only [strands, Indentation.indent, h.push]
    exact strands_alike h contents _
  | align alignment contents, i => by
    simp only [strands, h.align]
    exact strands_alike h contents _

theorem strandsAll_alike {options other : LayoutOptions} (h : IndentAlike options other) :
    ∀ (docs : List Doc) (indentation : Indentation),
    strandsAll options indentation docs = strandsAll other indentation docs
  | [], _ => rfl
  | doc :: rest, i => by
    simp only [strandsAll]
    rw [strands_alike h doc i, strandsAll_alike h rest i]

end

end Doc

/-! ## Agreement -/

/-- A width that neither printer fills: the columns that the tokens can bring a
line to, and those of all texts and margins of the document. -/
def Node.ampleWidth (tabWidth : Nat) (tree : Node) : Nat :=
  reach tabWidth (Token.ofNode tree) + weight ((Doc.ofNode tree).strands ⟨0, tabWidth, true, ""⟩ {})

/-- From a width on that depends on the tree and on the width of a tab, both
printers print the same, if no argument list of the tree holds anything that
breaks a line. -/
theorem printers_agree {text : String} {tree : Node} (h : parseNormalized text = .ok tree)
    (hquiet : tree.hasLoudArguments = false) (tabWidth width : Nat) (parser : String)
    (hample : tree.ampleWidth tabWidth ≤ width) (hlimit : width < 2 ^ 63) :
    printTokens ⟨width, tabWidth⟩ tree = printDoc ⟨width, tabWidth, true, parser⟩ tree := by
  obtain ⟨items, rfl, hspaced, hregular⟩ := regular_of_parseNormalized h
  have hcalm := suitsAll_calm items hregular hquiet
  obtain ⟨hunforced, hsheltered⟩ := ofNode_unforced hspaced hcalm
  unfold Node.ampleWidth at hample
  -- the document is printed flat
  have halike : IndentAlike ⟨width, tabWidth, true, parser⟩ ⟨0, tabWidth, true, ""⟩ := ⟨rfl, rfl⟩
  have hsigned : signed64 width = width := signed64_of_lt hlimit
  obtain ⟨out, htext, hdoc⟩ :=
    render_flat ⟨width, tabWidth, true, parser⟩ (isLinear_ofNode _) hunforced hsheltered
    (by rw [strands_alike halike, hsigned]; omega)
  -- the tokens are laid out without a wrap
  have htokens : Written false
      ((Doc.ofNode (.list items)).strands ⟨width, tabWidth, true, parser⟩ {}) [] _ :=
    layBy_written ⟨width, tabWidth⟩ rfl wrapsAtSpace_never (by simp) (by simp) hspaced hcalm
  rw [← layOut_eq_never ⟨width, tabWidth⟩ _ (by dsimp only; omega)] at htokens
  calc printTokens ⟨width, tabWidth⟩ (.list items)
    _ = String.ofList (layOut ⟨width, tabWidth⟩ (Token.ofNode (.list items))).out.reverse := rfl
    _ = String.ofList out.reverse := by rw [htokens.unique hdoc]
    _ = printDoc ⟨width, tabWidth, true, parser⟩ (.list items) := by rw [printDoc, htext]

/-- Arguments, a script, a comment and a paragraph break. -/
def citeTree : Node :=
  .list [.command "cite" (some [.string "p", .string ",", .whitespace, .string "q"]),
    .whitespace, .inlineMath [.string "y", .script .sub (some (.string "1"))],
    .whitespace, .comment " z" true, .parbreak]

theorem parseNormalized_cite : parseNormalized "\\cite[p, q] $y_1$ % z\n\n" = .ok citeTree := by
  unfold parseNormalized parse readDocument
  rw [readDocumentBy_cached]
  rfl

theorem printers_agree_cite :
    parseNormalized "\\cite[p, q] $y_1$ % z\n\n" = .ok citeTree ∧
      citeTree.hasLoudArguments = false ∧ citeTree.ampleWidth 4 ≤ 200 ∧
      printTokens ⟨200, 4⟩ citeTree = printDoc ⟨200, 4, true, "latex"⟩ citeTree :=
  ⟨parseNormalized_cite, by decide, by decide,
    printers_agree parseNormalized_cite (by decide) 4 200 "latex" (by decide) (by decide)⟩

end LatexFormatter
