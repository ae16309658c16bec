import LatexFormatter.Proofs.Check
import LatexFormatter.Proofs.Node.Normal
import LatexFormatter.Proofs.Printing.Nesting
import LatexFormatter.Proofs.Printing.Trimmed

/-
  The end of the output. What a printed text ends in depends on its last two nodes
  at most: on the last one, which leaves some text or ends a line, unless that is a
  space, which is printed only where no line has just been started. `EndsByRule`
  lists the cases. Both printers follow them (`Token.endsByRule_printTokens`,
  `Doc.endsByRule_printDoc`), so they print the same last character, the one that
  `lastPrinted?` finds in the tree.
-/

namespace LatexFormatter

open Node

/-! ## The last character -/

/-- What is written last for a node, if that is text. -/
def Node.closing? : Node → Option (List Char)
  | string content => some content.toList
  | command name none => some ('\\' :: name.toList)
  | command _ (some _) => some [']']
  | environment name _ _ => some (closingTag name)
  | mathEnvironment name _ => some (closingTag name)
  | inlineMath _ => some ['$']
  | displayMath _ => some ['\\', ']']
  | group _ => some ['}']
  | script mark none => some [mark.char]
  | script mark (some base) =>
    match base.singleChar? with
    | some c => some [mark.char, c]
    | none => some ['}']
  | arguments _ => some [']']
  | _ => none

/-- The last character that is printed for top-level nodes, the last of which comes
first. A space at the end is printed unless a line has just been started. -/
def lastPrinted? : List Node → Option Char
  | [] => none
  | [.whitespace] => none
  | [.parbreak] => none
  | .whitespace :: .comment _ _ :: _ => some '\n'
  | .whitespace :: _ :: _ => some ' '
  | .parbreak :: _ :: _ => some '\n'
  | .comment _ _ :: _ => some '\n'
  | node :: _ => node.closing?.bind List.getLast?

theorem lastPrinted?_cons {node : Node} {written : List Char} (h : node.closing? = some written)
    (rest : List Node) : lastPrinted? (node :: rest) = written.getLast? := by
  cases node with
  | whitespace | parbreak | comment _ _ => cases h
  | _ => simp [lastPrinted?, h]

theorem Node.exists_group {base : Node} (h : base.isGroup = true) :
    ∃ items, base = .group items := by
  cases base with
  | group items => exact ⟨items, rfl⟩
  | _ => cases h

/-- A text that is put behind the output, which is given last character first. -/
theorem head?_written {written : List Char} (hne : written ≠ []) (out : List Char) :
    (written.reverse ++ out).head? = written.getLast? := by
  rw [List.head?_append_of_ne_nil _ (by simpa using hne), List.head?_reverse]

/-- A node that is no space ends in text, or with a line of its own. -/
theorem Node.Plain.solid_cases {node : Node} (h : node.Plain) (hsolid : node.isSpace = false) :
    (∃ content sameline, node = .comment content sameline) ∨
      ∃ written, node.closing? = some written ∧ written ≠ [] := by
  cases node with
  | string content => exact Or.inr ⟨content.toList, rfl, by simpa using h.1⟩
  | command name args => cases args <;> exact Or.inr ⟨_, rfl, by simp⟩
  | environment name args body => exact Or.inr ⟨_, rfl, by simp [closingTag]⟩
  | mathEnvironment name body => exact Or.inr ⟨_, rfl, by simp [closingTag]⟩
  | inlineMath items => exact Or.inr ⟨_, rfl, by simp⟩
  | displayMath items => exact Or.inr ⟨_, rfl, by simp⟩
  | group items => exact Or.inr ⟨_, rfl, by simp⟩
  | arguments items => exact Or.inr ⟨_, rfl, by simp⟩
  | script mark base =>
    cases base with
    | none => exact Or.inr ⟨_, rfl, by simp⟩
    | some base =>
      cases hsingle : base.singleChar? with
      | some c => exact Or.inr ⟨[mark.char, c], by simp [Node.closing?, hsingle], by simp⟩
      | none => exact Or.inr ⟨['}'], by simp [Node.closing?, hsingle], by simp⟩
  | comment content sameline => exact Or.inl ⟨content, sameline, rfl⟩
  | whitespace | parbreak => cases hsolid
  | list _ | verbatim _ | verb _ _ | commentEnvironment _ => exact h.elim

/-- No space stands next to the last one. -/
theorem Node.Spread.before_last {inBody : Bool} {before : Option Node} {front : List Node}
    {node last : Node} (h : Spread inBody before (front ++ [node, last]))
    (hlast : last.isSpace = true) : node.isSpace = false := by
  induction front generalizing before with
  | nil =>
    obtain ⟨-, hrest⟩ := h
    exact (hrest.1 hlast).1.1
  | cons first front ih => exact ih h.2

/-- What decides the last character of the text that is printed for top-level
nodes. -/
structure EndsByRule (last? : List Node → Option Char) : Prop where
  nothing : last? [] = none
  space : ∀ node : Node, node.isSpace = true → last? [node] = none
  text : ∀ front node written, Node.closing? node = some written → written ≠ [] →
    last? (front ++ [node]) = written.getLast?
  comment : ∀ front content sameline, last? (front ++ [.comment content sameline]) = some '\n'
  textSpace : ∀ front node written, Node.closing? node = some written → written ≠ [] →
    last? (front ++ [node, .whitespace]) = some ' '
  commentSpace : ∀ front content sameline,
    last? (front ++ [.comment content sameline, .whitespace]) = some '\n'
  textBreak : ∀ front node written, Node.closing? node = some written → written ≠ [] →
    last? (front ++ [node, .parbreak]) = some '\n'
  commentBreak : ∀ front content sameline,
    last? (front ++ [.comment content sameline, .parbreak]) = some '\n'

theorem EndsByRule.eq_lastPrinted? {last? : List Node → Option Char} (h : EndsByRule last?)
    {items : List Node} (hplain : ∀ node ∈ items, node.Plain)
    (hspread : Spread false none items) : last? items = lastPrinted? items.reverse := by
  rcases List.eq_nil_or_concat' items with rfl | ⟨front, last, rfl⟩
  · exact h.nothing
  cases hlast : last.isSpace with
  | false =>
    rcases (hplain last (by simp)).solid_cases hlast with
      ⟨content, sameline, rfl⟩ | ⟨written, hclosing, hne⟩
    · simp [h.comment, lastPrinted?]
    · rw [h.text front last written hclosing hne, List.reverse_append, List.reverse_singleton,
        List.singleton_append, lastPrinted?_cons hclosing]
  | true =>
    rcases List.eq_nil_or_concat' front with rfl | ⟨front, node, rfl⟩
    · rw [List.nil_append, h.space last hlast]
      rcases isSpace_iff.1 hlast with rfl | rfl <;> rfl
    · rw [List.append_assoc, List.singleton_append] at hspread hplain ⊢
      have hnode := hspread.before_last hlast
      rcases (hplain node (by simp)).solid_cases hnode with
        ⟨content, sameline, rfl⟩ | ⟨written, hclosing, hne⟩
      · rcases isSpace_iff.1 hlast with rfl | rfl
        · simp [h.commentSpace, lastPrinted?]
        · simp [h.commentBreak, lastPrinted?]
      · rcases isSpace_iff.1 hlast with rfl | rfl
        · rw [h.textSpace front node written hclosing hne]
          cases node <;> simp_all [lastPrinted?, Node.closing?]
        · rw [h.textBreak front node written hclosing hne]
          simp [lastPrinted?]

namespace Token

variable (options : TextOptions)

/-- The page ends in a text, on the line that it stands on. -/
structure Page.Closed (page : Page) (written : List Char) : Prop where
  hasContent : page.hasContent = true
  ending : page.ending = .content
  last : page.out.head? = written.getLast?

/-- The page ends where a line has been started. -/
structure Page.Fresh (page : Page) : Prop where
  hasContent : page.hasContent = false
  ending : page.ending ≠ .start
  last : page.out.head? = some '\n'

theorem closed_step (page : Page) {written : List Char} (hne : written ≠ []) :
    (page.step options (chars written)).Closed written := by
  simp only [chars, Page.step, Page.write, String.toList_ofList]
  split
  · exact ⟨rfl, rfl, head?_written hne _⟩
  · exact ⟨rfl, rfl, head?_written hne _⟩

theorem closed_group (items : List Node) (page : Page) :
    ((ofNode (.group items)).foldl (Page.step options) page).Closed ['}'] := by
  have hbrace : ∀ page : Page,
      ((page.step options (chars ['}'])).step options endNoWrap).Closed ['}'] := by
    intro page
    have hclosed := closed_step options page (List.cons_ne_nil '}' [])
    exact ⟨hclosed.hasContent, hclosed.ending, hclosed.last⟩
  simpa [ofNode, chars] using hbrace _

theorem closed_ofNode {node : Node} {written : List Char} (h : node.closing? = some written)
    (hne : written ≠ []) (page : Page) :
    ((ofNode node).foldl (Page.step options) page).Closed written := by
  have hclosed : ∀ page : Page, (page.step options (chars written)).Closed written :=
    fun page => closed_step options page hne
  cases node with
  | string content =>
    cases h
    simpa [ofNode, chars] using hclosed page
  | command name args =>
    cases args with
    | none =>
      cases h
      simpa [ofNode, ofArgs] using hclosed _
    | some items =>
      cases h
      simpa [ofNode, ofArgs, chars] using hclosed _
  | environment name args body =>
    cases h
    simpa [ofNode] using hclosed _
  | mathEnvironment name body =>
    cases h
    simpa [ofNode] using hclosed _
  | inlineMath items =>
    cases h
    simpa [ofNode, chars] using hclosed _
  | displayMath items =>
    cases h
    simpa [ofNode, chars] using hclosed _
  | arguments items =>
    cases h
    simpa [ofNode, chars] using hclosed _
  | group items =>
    cases h
    exact closed_group options items page
  | script mark base =>
    cases base with
    | none =>
      cases h
      simpa [ofNode, ofScript] using hclosed page
    | some base =>
      rw [ofNode, ofScript]
      simp only [Node.closing?] at h
      cases hsingle : base.singleChar? with
      | some c =>
        rw [hsingle] at h
        cases h
        simpa using hclosed page
      | none =>
        rw [hsingle] at h
        cases h
        cases hg : base.isGroup with
        | true =>
          obtain ⟨items, rfl⟩ := exists_group hg
          simpa using closed_group options items _
        | false => simpa [chars] using hclosed _
  | list _ | whitespace | parbreak | verbatim _ | verb _ _ | commentEnvironment _
  | comment _ _ => cases h

theorem fresh_breakLines {page : Page} (h : page.indent = 0) (count : Nat) {ending : Ending}
    (hending : ending ≠ .start) :
    ({ page.breakLines options (count + 1) with ending := ending } : Page).Fresh := by
  refine ⟨rfl, hending, ?_⟩
  simp [Page.breakLines, h, List.replicate_succ]

theorem fresh_comment (content : String) (sameline : Bool) {page : Page} (h : page.indent = 0) :
    ((ofNode (.comment content sameline)).foldl (Page.step options) page).Fresh := by
  have hline : ∀ page : Page, page.indent = 0 →
      ((page.step options (chars ('%' :: content.toList))).step options newline).Fresh := by
    intro page hpage
    have htext := (counts_step options page (chars ('%' :: content.toList)) rfl).1
    exact fresh_breakLines options (htext.trans hpage) 0 (by simp)
  cases sameline
  · have hstart := (counts_step options page ensureNewline rfl).1
    simpa [ofNode] using hline _ (hstart.trans h)
  · simpa [ofNode] using hline page h

theorem fresh_paragraphBreak {page : Page} (h : page.indent = 0) (hending : page.ending ≠ .start) :
    (page.step options paragraphBreak).Fresh := by
  simp only [Page.step, beq_iff_eq, if_neg hending, Page.leaveParagraph]
  split
  · contradiction
  · exact fresh_breakLines options h 0 (by simp)
  · exact fresh_breakLines options h 1 (by simp)

theorem Page.Closed.head?_space {page : Page} {written : List Char} (h : page.Closed written) :
    (page.step options space).out.head? = some ' ' := by
  simp [Page.step, h.hasContent]

theorem Page.Fresh.head?_space {page : Page} (h : page.Fresh) :
    (page.step options space).out.head? = some '\n' := by
  simp [Page.step, h.hasContent, h.last]

/-- The last character that the token printer prints. -/
theorem endsByRule_printTokens :
    EndsByRule fun items => (printTokens options (.list items)).toList.getLast? := by
  have hindent : ∀ items : List Node, (layOut options (ofNodes items)).indent = 0 :=
    fun items => ((nested_ofNode (.list items)).keeps (counts_indent options) {}).1
  have hone : ∀ (front : List Node) (node : Node), layOut options (ofNodes (front ++ [node]))
      = (ofNode node).foldl (Page.step options) (layOut options (ofNodes front)) := by
    intro front node
    simp [layOut, ofNodes_append, ofNodes]
  have htwo : ∀ (front : List Node) (node last : Node),
      layOut options (ofNodes (front ++ [node, last]))
        = (ofNode last).foldl (Page.step options) (layOut options (ofNodes (front ++ [node]))) := by
    intro front node last
    rw [← hone, List.append_assoc, List.singleton_append]
  have htext : ∀ (front : List Node) {node : Node} {written : List Char},
      node.closing? = some written → written ≠ [] →
      (layOut options (ofNodes (front ++ [node]))).Closed written := by
    intro front node written hclosing hne
    rw [hone]
    exact closed_ofNode options hclosing hne _
  have hcomment : ∀ (front : List Node) (content : String) (sameline : Bool),
      (layOut options (ofNodes (front ++ [.comment content sameline]))).Fresh := by
    intro front content sameline
    rw [hone]
    exact fresh_comment options content sameline (hindent front)
  have hlast : ∀ items : List Node, (printTokens options (.list items)).toList.getLast?
      = (layOut options (ofNodes items)).out.head? := by
    intro items
    simp [printTokens, render, ofNode]
  simp only [hlast]
  refine ⟨rfl, ?_, ?_, ?_, ?_, ?_, ?_, ?_⟩
  · intro node hnode
    rcases isSpace_iff.1 hnode with rfl | rfl <;> rfl
  · exact fun front node written hclosing hne => (htext front hclosing hne).last
  · exact fun front content sameline => (hcomment front content sameline).last
  · intro front node written hclosing hne
    rw [htwo]
    exact (htext front hclosing hne).head?_space options
  · intro front content sameline
    rw [htwo]
    exact (hcomment front content sameline).head?_space options
  · intro front node written hclosing hne
    rw [htwo]
    refine (fresh_paragraphBreak options (hindent _) ?_).last
    simp [(htext front hclosing hne).ending]
  · intro front content sameline
    rw [htwo]
    exact (fresh_paragraphBreak options (hindent _) (hcomment front content sameline).ending).last

end Token

namespace Doc

theorem addNodes_append (builder : Builder) (items more : List Node) :
    addNodes builder (items ++ more) = addNodes (addNodes builder items) more := by
  induction items generalizing builder with
  | nil => rfl
  | cons node rest ih => simp [addNodes, ih]

namespace Builder

/-- Whatever is decided about the lines, what has been built ends in a text. -/
structure Closed (options : LayoutOptions) (depth : Nat) (builder : Builder)
    (written : List Char) : Prop where
  ending : builder.ending = .content
  pendingSpace : builder.pendingSpace = false
  last : ∀ out final, Written true (builder.strands options depth) out final →
    final.head? = written.getLast?

/-- What has been built ends where a line has been started at the margin. -/
structure Fresh (options : LayoutOptions) (builder : Builder) : Prop where
  ending : builder.ending = .newline ∨ builder.ending = .paragraph
  pendingSpace : builder.pendingSpace = false
  last : ∀ out final, Written true (builder.strands options 0) out final →
    final.head? = some '\n'

variable {options : LayoutOptions} {depth : Nat} {builder inner : Builder}

theorem closed_write (options : LayoutOptions) (depth : Nat) (builder : Builder)
    {written : List Char} (hne : written ≠ []) :
    (builder.write written).Closed options depth written := by
  refine ⟨rfl, pendingSpace_write written builder, ?_⟩
  intro out final hw
  rw [strands_write] at hw
  obtain ⟨mid, -, hcontent⟩ := Written.append_iff.1 hw
  have hfinal := (says_multiline written options depth true mid final).1
    (by simpa [strandsAll] using hcontent)
  rw [hfinal, head?_written hne]

theorem Closed.release {written : List Char} (h : builder.Closed options depth written) :
    builder.release.Closed options depth written :=
  ⟨h.ending, h.pendingSpace, h.last⟩

theorem closed_closeArguments (options : LayoutOptions) (depth : Nat) (builder inner : Builder) :
    (builder.closeArguments inner).Closed options depth [']'] := by
  refine ⟨rfl, pendingSpace_closeArguments builder inner, ?_⟩
  intro out final hw
  rw [strands_closeArguments, ← List.cons_append, ← List.append_assoc] at hw
  obtain ⟨mid, -, hclosing⟩ := Written.append_iff.1 hw
  rw [Written.text_iff.1 hclosing]
  rfl

theorem fresh_hardBreak (options : LayoutOptions) (builder : Builder) (count : Nat)
    {ending : Ending} (hending : ending = .newline ∨ ending = .paragraph) :
    (builder.hardBreak (count + 1) ending).Fresh options := by
  refine ⟨hending, pendingSpace_hardBreak (count + 1) ending builder, ?_⟩
  intro out final hw
  rw [strands_hardBreak] at hw
  obtain ⟨mid, -, hlines⟩ := Written.append_iff.1 hw
  rw [eq_of_hardLines hlines]
  simp [levelText, List.replicate_succ]

end Builder

open Builder

theorem closed_addNode (options : LayoutOptions) (depth : Nat) (builder : Builder) {node : Node}
    {written : List Char} (h : node.closing? = some written) (hne : written ≠ []) :
    (addNode builder node).Closed options depth written := by
  have hclosed : ∀ builder : Builder, (builder.write written).Closed options depth written :=
    fun builder => closed_write options depth builder hne
  have hgroup : ∀ (builder : Builder) (items : List Node),
      (addNode builder (.group items)).Closed options depth ['}'] := by
    intro builder items
    rw [addNode]
    exact (closed_write options depth _ (by simp)).release
  cases node with
  | string content =>
    cases h
    simpa [addNode] using hclosed builder
  | command name args =>
    cases args with
    | none =>
      cases h
      simpa [addNode, addArgs] using hclosed _
    | some items =>
      cases h
      simpa [addNode, addArgs] using closed_closeArguments options depth _ _
  | environment name args body | mathEnvironment name body =>
    cases h
    simpa [addNode] using hclosed _
  | inlineMath items | displayMath items =>
    cases h
    simpa [addNode] using hclosed _
  | arguments items =>
    cases h
    simpa [addNode] using closed_closeArguments options depth _ _
  | group items =>
    cases h
    exact hgroup builder items
  | script mark base =>
    cases base with
    | none =>
      cases h
      simpa [addNode, addScript] using hclosed builder
    | some base =>
      rw [addNode, addScript]
      simp only [Node.closing?] at h
      cases hsingle : base.singleChar? with
      | some c =>
        rw [hsingle] at h
        cases h
        exact hclosed builder
      | none =>
        rw [hsingle] at h
        cases h
        cases hg : base.isGroup with
        | true =>
          obtain ⟨items, rfl⟩ := exists_group hg
          exact hgroup _ items
        | false => exact hclosed _
  | list _ | whitespace | parbreak | verbatim _ | verb _ _ | commentEnvironment _
  | comment _ _ => cases h

theorem fresh_comment (options : LayoutOptions) (builder : Builder) (content : String)
    (sameline : Bool) : (addNode builder (.comment content sameline)).Fresh options := by
  rw [addNode]
  exact fresh_hardBreak options _ 0 (Or.inl rfl)

theorem fresh_leaveParagraph (options : LayoutOptions) {builder : Builder}
    (h : builder.ending ≠ .start) : builder.leaveParagraph.Fresh options := by
  unfold Builder.leaveParagraph
  split
  · contradiction
  · exact fresh_hardBreak options builder 0 (Or.inr rfl)
  · exact fresh_hardBreak options builder 1 (Or.inr rfl)

/-- What is printed for nodes is what was built for them, and a space if one is
due. -/
theorem exists_written (options : LayoutOptions) (items : List Node) :
    ∃ out, (printDoc options (.list items)).toList = out.reverse ∧
      Written true ((addNodes {} items).strands options 0 ++ (addNodes {} items).lastSpace)
        [] out := by
  obtain ⟨out, htext, hw⟩ := render_written options (isLinear_ofNode (.list items))
  refine ⟨out, by simp [printDoc, htext], ?_⟩
  have hstrands : (ofNode (.list items)).strands options {}
      = (addNodes {} items).strands options 0 ++ (addNodes {} items).lastSpace := by
    rw [ofNode, addNode, strands_finish]
    unfold lastSpace
    cases hpending : (addNodes {} items).pendingSpace with
    | true =>
      simp only [if_true]
      exact strands_push options 0 (addNodes {} items) (Doc.text " ")
    | false =>
      simp only [Bool.false_eq_true, if_false, List.append_nil]
      rfl
  rwa [hstrands] at hw

/-- The last character that the layout engine prints. -/
theorem endsByRule_printDoc (options : LayoutOptions) :
    EndsByRule fun items => (printDoc options (.list items)).toList.getLast? := by
  have hone : ∀ (front : List Node) (node : Node),
      addNodes {} (front ++ [node]) = addNode (addNodes {} front) node := by
    intro front node
    rw [addNodes_append, addNodes, addNodes]
  have htwo : ∀ (front : List Node) (node last : Node),
      addNodes {} (front ++ [node, last]) = addNode (addNodes {} (front ++ [node])) last := by
    intro front node last
    rw [← hone, List.append_assoc, List.singleton_append]
  have hsettled : ∀ {items : List Node} {last : Option Char},
      (addNodes {} items).pendingSpace = false →
      (∀ out, Written true ((addNodes {} items).strands options 0) [] out → out.head? = last) →
      (printDoc options (.list items)).toList.getLast? = last := by
    intro items last hpending hlast
    obtain ⟨out, hout, hw⟩ := exists_written options items
    rw [lastSpace, hpending] at hw
    rw [hout, List.getLast?_reverse]
    exact hlast out (by simpa using hw)
  have hbreak : ∀ {items : List Node}, (addNodes {} items).Fresh options →
      (printDoc options (.list items)).toList.getLast? = some '\n' :=
    fun hfresh => hsettled hfresh.pendingSpace (hfresh.last [])
  have htext : ∀ (front : List Node) {node : Node} {written : List Char},
      node.closing? = some written → written ≠ [] →
      (addNodes {} (front ++ [node])).Closed options 0 written := by
    intro front node written hclosing hne
    rw [hone]
    exact closed_addNode options 0 _ hclosing hne
  have hcomment : ∀ (front : List Node) (content : String) (sameline : Bool),
      (addNodes {} (front ++ [.comment content sameline])).Fresh options := by
    intro front content sameline
    rw [hone]
    exact fresh_comment options _ content sameline
  have hempty : ∀ {items : List Node}, addNodes {} items = {} →
      (printDoc options (.list items)).toList.getLast? = none := by
    intro items hitems
    refine hsettled (by rw [hitems]) ?_
    rw [hitems]
    intro out hw
    rw [Written.nil_iff.1 hw]
    rfl
  refine ⟨hempty rfl, ?_, ?_, ?_, ?_, ?_, ?_, ?_⟩
  · intro node hnode
    rcases isSpace_iff.1 hnode with rfl | rfl <;> exact hempty rfl
  · intro front node written hclosing hne
    exact hsettled (htext front hclosing hne).pendingSpace ((htext front hclosing hne).last [])
  · exact fun front content sameline => hbreak (hcomment front content sameline)
  · intro front node written hclosing hne
    obtain ⟨out, hout, hw⟩ := exists_written options (front ++ [node, .whitespace])
    have hpending : (addNodes {} (front ++ [node, .whitespace])).pendingSpace = true := by
      rw [htwo, addNode, Builder.putSpace, (htext front hclosing hne).ending]
      rfl
    rw [lastSpace, hpending, if_pos rfl] at hw
    obtain ⟨mid, -, hspace⟩ := Written.append_iff.1 hw
    rw [hout, List.getLast?_reverse, Written.text_iff.1 hspace]
    rfl
  · intro front content sameline
    refine hbreak ?_
    rw [htwo, addNode, Builder.putSpace]
    have hfresh := hcomment front content sameline
    rcases hfresh.ending with hending | hending
    · rw [hending]
      exact hfresh
    · rw [hending]
      exact hfresh
  · intro front node written hclosing hne
    refine hbreak ?_
    rw [htwo, addNode]
    exact fresh_leaveParagraph options (by simp [(htext front hclosing hne).ending])
  · intro front content sameline
    refine hbreak ?_
    rw [htwo, addNode]
    refine fresh_leaveParagraph options ?_
    rcases (hcomment front content sameline).ending with hending | hending <;> simp [hending]

end Doc

end LatexFormatter
