import LatexFormatter.Format
import LatexFormatter.Proofs.Printing.Acts

/-
  The two printers side by side. While a tree is turned into tokens that a page
  is written from, and into a document that a builder puts together, the page
  always shows one way of writing the strands that the builder has
  (`Mirrors`): a space that the builder has yet to put stands at the end of the
  page already, and a line that the page wraps is a line of the builder that may
  be taken.

  Inside arguments the builder indents its lines and the page does not, and the
  builder allows breaks where the page has none. There the two agree only where
  nothing wraps and nothing in the arguments breaks a line.
-/

namespace LatexFormatter

/-! ## What breaks a line -/

namespace Node

mutual

/-- Whether something in the tree, at any depth, ends a line when it is
printed. -/
def breaksLine : Node → Bool
  | list content => anyBreaksLine content
  | string _ => false
  | whitespace => false
  | parbreak => true
  | command name args =>
    startsLine name || startsParagraph name || name.toList.contains '\n' || argsBreakLine args
  | environment _ _ _ => true
  | mathEnvironment _ _ => true
  | inlineMath content => anyBreaksLine content
  | displayMath _ => true
  | group content => anyBreaksLine content
  | script _ base => baseBreaksLine base
  | verbatim _ => true
  | verb delimiter content => (verb delimiter content).display.contains '\n'
  | commentEnvironment _ => true
  | comment _ _ => true
  | arguments content => anyBreaksLine content

def anyBreaksLine : List Node → Bool
  | [] => false
  | node :: rest => breaksLine node || anyBreaksLine rest

def argsBreakLine : Option (List Node) → Bool
  | none => false
  | some content => anyBreaksLine content

def baseBreaksLine : Option Node → Bool
  | none => false
  | some base => breaksLine base

end

mutual

/-- Whether the tree has an argument list that holds, at any depth, something that
breaks a line. -/
def hasLoudArguments : Node → Bool
  | list content => anyLoudArguments content
  | command _ args => argsBreakLine args
  | environment _ args body => argsBreakLine args || anyLoudArguments body
  | mathEnvironment _ body => anyLoudArguments body
  | inlineMath content => anyLoudArguments content
  | displayMath content => anyLoudArguments content
  | group content => anyLoudArguments content
  | script _ base => baseLoudArguments base
  | arguments content => anyBreaksLine content
  | string _ | whitespace | parbreak | verbatim _ | verb _ _ | commentEnvironment _
  | comment _ _ => false

def anyLoudArguments : List Node → Bool
  | [] => false
  | node :: rest => hasLoudArguments node || anyLoudArguments rest

def baseLoudArguments : Option Node → Bool
  | none => false
  | some base => hasLoudArguments base

end

end Node

/-! ## Pages under a rule for wrapping -/

namespace Token

/-- Carries out one token, with a text on a new line where the rule says so. -/
def Page.stepBy (options : TextOptions) (rule : Page → List Char → Bool) (page : Page) :
    Token → Page
  | text content =>
    if rule page content.toList then (page.breakLines options 1).put content.toList
    else page.put content.toList
  | token => page.step options token

/-- Carries out tokens in order under a rule. -/
def Page.layBy (options : TextOptions) (rule : Page → List Char → Bool) (page : Page)
    (tokens : List Token) : Page :=
  tokens.foldl (Page.stepBy options rule) page

@[simp] theorem Page.layBy_nil (options : TextOptions) (rule : Page → List Char → Bool)
    (page : Page) : page.layBy options rule [] = page := rfl

@[simp] theorem Page.layBy_cons (options : TextOptions) (rule : Page → List Char → Bool)
    (page : Page) (token : Token) (rest : List Token) :
    page.layBy options rule (token :: rest)
      = (page.stepBy options rule token).layBy options rule rest := rfl

@[simp] theorem Page.layBy_append (options : TextOptions) (rule : Page → List Char → Bool)
    (page : Page) (xs ys : List Token) :
    page.layBy options rule (xs ++ ys)
      = (page.layBy options rule xs).layBy options rule ys := List.foldl_append

/-- The printer wraps where its page says so. -/
theorem layOut_eq_layBy (options : TextOptions) (tokens : List Token) :
    layOut options tokens = ({} : Page).layBy options (Page.wraps options) tokens := by
  have hstep : Page.step options = Page.stepBy options (Page.wraps options) := by
    funext page token
    cases token <;> rfl
  rw [layOut, Page.layBy, hstep]

/-- A rule wraps only at a space, before a text that may start a line and outside
of everything that forbids it; and not at all unless `wrap` says so. -/
structure WrapsAtSpace (wrap : Bool) (rule : Page → List Char → Bool) : Prop where
  never : wrap = false → ∀ page content, rule page content = false
  only : ∀ page content, rule page content = true →
    page.noWrap = 0 ∧ page.out.head? = some ' ' ∧ isWrappable content = true

theorem wrapsAtSpace_wraps (options : TextOptions) : WrapsAtSpace true (Page.wraps options) := by
  refine ⟨by simp, ?_⟩
  intro page content h
  simp only [Page.wraps, Bool.and_eq_true, beq_iff_eq] at h
  exact ⟨h.1.1.1.1, h.1.2, h.2⟩

theorem wrapsAtSpace_never : WrapsAtSpace false fun _ _ => false :=
  ⟨fun _ _ _ => rfl, by simp⟩

end Token

/-! ## One state beside the other -/

open Doc Token

/-- The page shows one way of writing what the builder has, from `start` on. The
builder stands at a level of indentation in the document, the page at one of its
own. -/
structure Mirrors (options : LayoutOptions) (wrap : Bool) (depth level : Nat) (start : List Char)
    (page : Page) (builder : Builder) : Prop where
  ending : page.ending = builder.ending
  hasContent : page.hasContent = (builder.ending == .content)
  pending : builder.pendingSpace = true → builder.ending = .content
  indent : page.indent = level
  noWrap : wrap = true → page.noWrap = builder.noWrap
  out : ∃ out, Written wrap (builder.strands options depth) start out ∧
    page.out = (if builder.pendingSpace then ' ' :: out else out) ∧
    (wrap = true → out.head? ≠ some ' ')

theorem levelText_tabs {options : LayoutOptions} (ht : options.useTabs = true) (depth : Nat) :
    (levelText options depth).reverse = List.replicate depth '\t' := by
  simp [levelText, ht]

/-- Hard lines one below the other: the blanks before them go, and only the last
has a margin. -/
theorem written_hardLines {options : LayoutOptions} {wrap : Bool} (depth count : Nat)
    (out : List Char) :
    Written wrap (List.replicate (count + 1) (lineStrand options depth true false)) out
      ((levelText options depth).reverse ++ List.replicate (count + 1) '\n'
        ++ out.dropWhile isSpace) := by
  induction count generalizing out with
  | zero =>
    apply Written.cons false
    simpa [lineStrand, Strand.put, Strand.isHard] using Written.nil _
  | succ count ih =>
    rw [List.replicate_succ]
    apply Written.cons false
    have hdrop : ((levelText options depth).reverse ++ '\n' :: out.dropWhile isSpace).dropWhile
        isSpace = '\n' :: out.dropWhile isSpace := by
      rw [List.dropWhile_append_of_pos]
      · simp [isSpace]
      · intro c hc
        exact isSpace_of_mem_levelText (List.mem_reverse.1 hc)
    have h := ih ((levelText options depth).reverse ++ '\n' :: out.dropWhile isSpace)
    rw [hdrop] at h
    simpa [lineStrand, Strand.put, Strand.isHard, List.replicate_succ'] using h

theorem Doc.Builder.noWrap_resolveSpace (next : List Char) (builder : Builder) :
    (builder.resolveSpace next).noWrap = builder.noWrap := by
  unfold Builder.resolveSpace
  split
  · dsimp only
    split <;> rfl
  · rfl

theorem Doc.Builder.noWrap_hardBreak (count : Nat) (ending : Ending) (builder : Builder) :
    (builder.hardBreak count ending).noWrap = builder.noWrap := by
  rw [hardBreak_eq]

namespace Mirrors

variable {options : LayoutOptions} {wrap : Bool} {depth level : Nat} {start : List Char}
  {page : Page} {builder inner : Builder} {textOptions : TextOptions}
  {rule : Page → List Char → Bool}

/-- What the space before a text comes out as. -/
theorem written_space (textOptions : TextOptions) (ht : options.useTabs = true)
    (hr : WrapsAtSpace wrap rule)
    (hm : Mirrors options wrap depth level start page builder)
    (hlevel : wrap = true → level = depth)
    (content : List Char) :
    Written wrap (builder.strands options depth ++ builder.spaceStrands options depth content) start
      (if rule page content then (page.breakLines textOptions 1).out else page.out) := by
  obtain ⟨out, hwritten, hout, hfirm⟩ := hm.out
  apply hwritten.append
  cases hp : builder.pendingSpace with
  | false =>
    -- no space at the end of the page, so nothing is wrapped
    have hrule : rule page content = false := by
      cases wrap with
      | false => exact hr.never rfl page content
      | true =>
        cases hc : rule page content with
        | false => rfl
        | true =>
          have hhead := (hr.only page content hc).2.1
          simp only [hp, Bool.false_eq_true, if_false] at hout
          exact absurd (hout ▸ hhead) (hfirm rfl)
    simp only [hp, Bool.false_eq_true, if_false] at hout
    simp [hrule, Builder.spaceStrands, hp, hout, Written.nil_iff]
  | true =>
    simp only [hp, if_true] at hout
    cases hc : rule page content with
    | false =>
      simp only [Builder.spaceStrands, hp, if_true, Bool.false_eq_true, if_false, hout]
      split
      · apply Written.cons false
        simpa [lineStrand, Strand.put, Strand.isHard] using Written.nil _
      · exact Written.text [' ']
    | true =>
      obtain ⟨hnowrap, -, hstarts⟩ := hr.only page content hc
      cases wrap with
      | false => simp [hr.never rfl] at hc
      | true =>
        have hfree : builder.noWrap = 0 := (hm.noWrap rfl).symm.trans hnowrap
        have hindent : page.indent = depth := hm.indent.trans (hlevel rfl)
        simp only [Builder.spaceStrands, hp, hfree, hstarts, beq_self_eq_true, Bool.and_self,
          if_true]
        apply Written.cons true
        simpa [lineStrand, Strand.put, Strand.isHard, Page.breakLines, hout, isSpace, hindent,
          levelText_tabs ht] using Written.nil _

/-- Both write a text. -/
theorem write (ht : options.useTabs = true) (hr : WrapsAtSpace wrap rule)
    (hm : Mirrors options wrap depth level start page builder)
    (hlevel : wrap = true → level = depth)
    (content : String) (hfirm : wrap = true → EndsFirm content.toList) :
    Mirrors options wrap depth level start (page.stepBy textOptions rule (.text content))
      (builder.write content.toList) := by
  have hspace := written_space textOptions ht hr hm hlevel content.toList
  have hpage : page.stepBy textOptions rule (.text content)
      = (if rule page content.toList then page.breakLines textOptions 1 else page).put
          content.toList := by
    simp only [Page.stepBy]
    split <;> rfl
  have hout : (page.stepBy textOptions rule (.text content)).out = content.toList.reverse
      ++ (if rule page content.toList then (page.breakLines textOptions 1).out else page.out) := by
    rw [hpage]
    split <;> rfl
  refine ⟨by rw [hpage]; rfl, by rw [hpage]; rfl, by simp, ?_, ?_, ?_⟩
  · rw [hpage]
    split <;> exact hm.indent
  · intro hw
    show _ = (builder.resolveSpace content.toList).noWrap
    rw [Builder.noWrap_resolveSpace, ← hm.noWrap hw, hpage]
    split <;> rfl
  · refine ⟨_, ?_, by simpa using hout, ?_⟩
    · rw [Builder.strands_write]
      exact hspace.append (written_multiline options depth content.toList _)
    · intro hw
      obtain ⟨c, hlast, hne⟩ := hfirm hw
      rw [List.head?_append, List.head?_reverse, hlast]
      rintro ⟨⟩
      cases hne

/-- Both put a space off until they know what follows; the page has it already. -/
theorem space (textOptions : TextOptions)
    (hm : Mirrors options wrap depth level start page builder) (hp : builder.pendingSpace = false) :
    Mirrors options wrap depth level start (page.step textOptions .space)
      builder.putSpace := by
  obtain ⟨out, hwritten, hout, hfirm⟩ := hm.out
  simp only [hp, Bool.false_eq_true, if_false] at hout
  have hcontent := hm.hasContent
  simp only [Page.step, Builder.putSpace]
  cases hc : builder.ending == .content with
  | false =>
    rw [hc] at hcontent
    simpa [hcontent, hc] using hm
  | true =>
    rw [hc] at hcontent
    have hending : builder.ending = .content := by simpa using hc
    simp only [hcontent, if_true]
    refine ⟨hending.symm, by simp [hending], fun _ => hending, hm.indent, hm.noWrap, ?_⟩
    exact ⟨out, hwritten, by simp [hout], hfirm⟩

/-- Both break the line. -/
theorem hardBreak (ht : options.useTabs = true)
    (hm : Mirrors options wrap depth level start page builder) (hlevel : level = depth)
    (count : Nat) (ending : Ending) (hending : ending ≠ .content) :
    Mirrors options wrap depth level start
      { page.breakLines textOptions (count + 1) with ending := ending }
      (builder.hardBreak (count + 1) ending) := by
  obtain ⟨out, hwritten, hout, -⟩ := hm.out
  refine ⟨rfl, ?_, by simp, hm.indent, ?_, ?_⟩
  · show false = (ending == .content)
    simpa using hending
  · intro hw
    rw [Builder.noWrap_hardBreak]
    exact hm.noWrap hw
  · refine ⟨(levelText options depth).reverse ++ List.replicate (count + 1) '\n'
      ++ out.dropWhile isSpace, ?_, ?_, ?_⟩
    · rw [Builder.strands_hardBreak]
      exact hwritten.append (written_hardLines depth count out)
    · have hdrop : page.out.dropWhile isSpace = out.dropWhile isSpace := by
        rw [hout]
        split
        · simp [isSpace]
        · rfl
      simp [Page.breakLines, hm.indent, hlevel, levelText_tabs ht, hdrop]
    · intro _
      rw [levelText_tabs ht]
      cases depth <;> simp [List.replicate_succ]

theorem newline (ht : options.useTabs = true)
    (hm : Mirrors options wrap depth level start page builder) (hlevel : level = depth) :
    Mirrors options wrap depth level start (page.step textOptions .newline)
      builder.newline :=
  hm.hardBreak ht hlevel 0 .newline (by decide)

theorem ensureNewline (ht : options.useTabs = true)
    (hm : Mirrors options wrap depth level start page builder) (hlevel : level = depth) :
    Mirrors options wrap depth level start (page.step textOptions .ensureNewline)
      builder.ensureNewline := by
  simp only [Page.step, Builder.ensureNewline, hm.ending]
  split
  · exact hm.hardBreak ht hlevel 0 .newline (by decide)
  · exact hm

theorem preferParagraph (ht : options.useTabs = true)
    (hm : Mirrors options wrap depth level start page builder) (hlevel : level = depth) :
    Mirrors options wrap depth level start (page.step textOptions .preferParagraph)
      builder.preferParagraph := by
  simp only [Page.step, Builder.preferParagraph, hm.ending]
  split
  · exact hm.hardBreak ht hlevel 1 .paragraph (by decide)
  · exact hm

theorem paragraphBreak (ht : options.useTabs = true)
    (hm : Mirrors options wrap depth level start page builder) (hlevel : level = depth) :
    Mirrors options wrap depth level start (page.step textOptions .paragraphBreak)
      builder.leaveParagraph := by
  simp only [Page.step, Page.leaveParagraph, Builder.leaveParagraph, hm.ending]
  cases hending : builder.ending with
  | start => simpa [hending] using hm
  | newline => exact hm.hardBreak ht hlevel 0 .paragraph (by decide)
  | paragraph => exact hm.hardBreak ht hlevel 1 .paragraph (by decide)
  | content => exact hm.hardBreak ht hlevel 1 .paragraph (by decide)

theorem hold (textOptions : TextOptions)
    (hm : Mirrors options wrap depth level start page builder) :
    Mirrors options wrap depth level start (page.step textOptions .noWrap) builder.hold :=
  ⟨hm.ending, hm.hasContent, hm.pending, hm.indent,
    fun hw => congrArg (· + 1) (hm.noWrap hw), hm.out⟩

theorem release (textOptions : TextOptions)
    (hm : Mirrors options wrap depth level start page builder) :
    Mirrors options wrap depth level start (page.step textOptions .endNoWrap)
      builder.release :=
  ⟨hm.ending, hm.hasContent, hm.pending, hm.indent,
    fun hw => congrArg (· - 1) (hm.noWrap hw), hm.out⟩

/-- A builder for an indented body goes on from what the page shows. -/
theorem openBody (textOptions : TextOptions)
    (hm : Mirrors options wrap depth level start page builder) (hp : builder.pendingSpace = false) :
    Mirrors options wrap (depth + 1) (level + 1) page.out (page.step textOptions .indent)
      builder.nested := by
  obtain ⟨out, -, hout, hfirm⟩ := hm.out
  simp only [hp, Bool.false_eq_true, if_false] at hout
  refine ⟨hm.ending, hm.hasContent, hm.pending, congrArg (· + 1) hm.indent, hm.noWrap, ?_⟩
  refine ⟨page.out, by simpa using Written.nil _, ?_, ?_⟩
  · simp [Page.step, Builder.nested, hp]
  · rw [hout]
    exact hfirm

/-- The body belongs to what the outer builder has. -/
theorem closeBody (textOptions : TextOptions) {body : Page}
    (hm : Mirrors options wrap depth level start page builder) (hp : builder.pendingSpace = false)
    (hi : Mirrors options wrap (depth + 1) (level + 1) page.out body inner) :
    Mirrors options wrap depth level start (body.step textOptions .endIndent)
      (builder.closeBody inner) := by
  obtain ⟨out, hwritten, hout, -⟩ := hm.out
  simp only [hp, Bool.false_eq_true, if_false] at hout
  obtain ⟨final, hinner, hbody, hfirm⟩ := hi.out
  refine ⟨hi.ending, hi.hasContent, hi.pending, ?_, hi.noWrap, final, ?_, hbody, hfirm⟩
  · simp [Page.step, hi.indent]
  · rw [Builder.strands_closeBody]
    exact hwritten.append (hout ▸ hinner)

/-- Both write a text given by its characters. -/
theorem writeChars (ht : options.useTabs = true) (hr : WrapsAtSpace wrap rule)
    (hm : Mirrors options wrap depth level start page builder)
    (hlevel : wrap = true → level = depth)
    (content : List Char) (hfirm : wrap = true → EndsFirm content) :
    Mirrors options wrap depth level start (page.stepBy textOptions rule (.chars content))
      (builder.write content) := by
  have h : Mirrors options wrap depth level start
      (page.stepBy textOptions rule (.chars content)) _ :=
    hm.write ht hr hlevel (String.ofList content) (by simpa using hfirm)
  rw [String.toList_ofList] at h
  exact h

/-- A line after a comma that is passed over leaves no trace if it is soft. -/
theorem pushSoftline (hw : wrap = false)
    (hm : Mirrors options wrap depth level start page builder) :
    Mirrors options wrap depth level start page (builder.push softline) := by
  subst hw
  obtain ⟨out, hwritten, hout, -⟩ := hm.out
  refine ⟨hm.ending, hm.hasContent, hm.pending, hm.indent, by simp, out, ?_, hout, by simp⟩
  rw [Builder.strands_push]
  refine hwritten.append (Written.cons false ?_)
  simpa [softline, Strand.put, Strand.isHard] using Written.nil out

/-- A line after a comma that is passed over is the space of the page. -/
theorem pushSpace (textOptions : TextOptions) (hw : wrap = false)
    (hm : Mirrors options wrap depth level start page builder)
    (hp : builder.pendingSpace = false) (hending : builder.ending = .content) :
    Mirrors options wrap depth level start (page.step textOptions .space)
      (builder.push Doc.space) := by
  subst hw
  obtain ⟨out, hwritten, hout, -⟩ := hm.out
  simp only [hp, Bool.false_eq_true, if_false] at hout
  have hcontent : page.hasContent = true := by rw [hm.hasContent, hending]; rfl
  simp only [Page.step, hcontent, if_true]
  refine ⟨hending.symm, ?_, hm.pending, hm.indent, by simp, ' ' :: out, ?_, ?_, by simp⟩
  · show true = (builder.ending == .content)
    rw [hending]
    rfl
  · rw [Builder.strands_push]
    refine hwritten.append (Written.cons false ?_)
    simpa [Doc.space, Strand.put, Strand.isHard] using Written.nil (' ' :: out)
  · simp [Builder.push, hp, hout]

/-- Both open arguments; those of the builder are nested and indented. -/
theorem openArguments (hw : wrap = false) (ht : options.useTabs = true)
    (hr : WrapsAtSpace wrap rule) (hm : Mirrors options wrap depth level start page builder) :
    ∃ out, Written wrap (builder.openArguments.strands options depth) start out ∧
      Mirrors options wrap (depth + 1) level ('[' :: out)
        (page.stepBy textOptions rule (.text "[")) builder.openArguments.nested := by
  subst hw
  have hspace := written_space textOptions ht hr hm (by simp) ['[']
  have hput : page.stepBy textOptions rule (.text "[") = page.put ['['] := by
    simp [Page.stepBy, hr.never rfl]
  simp only [hr.never rfl, Bool.false_eq_true, if_false] at hspace
  have hp : builder.openArguments.pendingSpace = false :=
    Builder.pendingSpace_resolveSpace ['['] builder
  rw [hput]
  refine ⟨page.out, ?_, rfl, rfl, fun _ => rfl, hm.indent, by simp, ?_⟩
  · show Written false ((builder.resolveSpace ['[']).strands options depth) start page.out
    rw [Builder.strands_resolveSpace]
    exact hspace
  · exact ⟨_, Written.nil _, by simp [Builder.nested, hp, Page.put], by simp⟩

/-- Both close arguments. -/
theorem closeArguments {last : Page} {out : List Char} (hw : wrap = false)
    (hr : WrapsAtSpace wrap rule)
    (hwritten : Written wrap (builder.strands options depth) start out)
    (hi : Mirrors options wrap (depth + 1) level ('[' :: out) last inner) :
    Mirrors options wrap depth level start (last.stepBy textOptions rule (.text "]"))
      (builder.closeArguments inner) := by
  subst hw
  obtain ⟨final, hinner, hlast, -⟩ := hi.out
  have hput : last.stepBy textOptions rule (.text "]") = last.put [']'] := by
    simp [Page.stepBy, hr.never rfl]
  have hp := Builder.pendingSpace_closeArguments builder inner
  have hspace : Written false inner.lastSpace final last.out := by
    unfold Builder.lastSpace
    cases hc : inner.pendingSpace with
    | false => simpa [hc, Written.nil_iff] using hlast
    | true => simpa [hc, Written.text_iff] using hlast
  rw [hput]
  refine ⟨rfl, rfl, fun _ => rfl, hi.indent, by simp, ']' :: last.out, ?_,
    by simp [hp, Page.put], by simp⟩
  rw [Builder.strands_closeArguments]
  exact hwritten.append
    ((Written.text ['[']).append ((hinner.append hspace).append (Written.text [']'])))

end Mirrors

end LatexFormatter
