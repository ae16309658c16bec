import LatexFormatter.Proofs.Printing.Outline

/-
  Token streams that come to the same. Some directives change nothing where they
  stand: a space at the start of a line or before a line ending, the demand for a
  line that has just been started. `effects` leaves them out and says of each of the
  others what it comes to where it stands. The token printer and, where there are
  no arguments, the builder of documents carry out the same laws (`Printer`), so
  both make the same of two streams with the same effects (`printTokens_of_alike`,
  `printDoc_of_alike`).
-/

namespace LatexFormatter

open Node Doc

/-! ## Effects -/

namespace Lead

/-- What a token comes to while a lead is open. A space comes to something when it
is known that a text follows. -/
def effect (lead : Lead) : Token → List Token
  | .text content => if lead = space then [.space, .text content] else [.text content]
  | .space => []
  | .newline => [.newline]
  | .ensureNewline => if lead.IsInline then [.newline] else []
  | .paragraphBreak => if lead = start then [] else [.paragraphBreak]
  | .preferParagraph => if lead.IsInline then [.paragraphBreak] else []
  | .ensureParagraph =>
    if lead.IsInline ∨ lead.ending = .newline then [.paragraphBreak] else []
  | .indent => [.indent]
  | .endIndent => [.endIndent]
  | .noWrap => [.noWrap]
  | .endNoWrap => [.endNoWrap]

/-- What several tokens come to, one after the other. -/
def effects (lead : Lead) : List Token → List Token
  | [] => []
  | token :: rest => lead.effect token ++ (lead.after token).effects rest

theorem effects_append (lead : Lead) (tokens more : List Token) :
    lead.effects (tokens ++ more) = lead.effects tokens ++ (lead.afterAll tokens).effects more := by
  induction tokens generalizing lead with
  | nil => rfl
  | cons token tokens ih => simp [effects, ih]

/-- Where a space is due, spaces come to nothing, and anything else comes to a directive
first. -/
theorem effects_space (tokens : List Token) :
    (space.effects tokens = [] ∧ space.afterAll tokens = space) ∨
      ∃ token rest, space.effects tokens = token :: rest ∧ ∀ content, token ≠ .text content := by
  induction tokens with
  | nil => exact Or.inl ⟨rfl, rfl⟩
  | cons token tokens ih =>
    cases token with
    | space => exact ih
    | _ => exact Or.inr ⟨_, _, rfl, by simp⟩

/-- Only one text comes to one text with nothing around it. -/
theorem eq_of_effects_tight {tokens : List Token} {content : String}
    (h : tight.effects tokens = [.text content]) (hafter : tight.afterAll tokens = tight) :
    tokens = [.text content] := by
  cases tokens with
  | nil => cases h
  | cons token rest =>
    cases token with
    | text other =>
      obtain ⟨rfl, hrest⟩ : other = content ∧ tight.effects rest = [] := by
        simpa [effects, effect] using h
      cases rest with
      | nil => rfl
      | cons token rest =>
        cases token with
        | space =>
          rcases effects_space rest with ⟨-, hspace⟩ | ⟨token, more, hmore, -⟩
          · exact absurd (hspace.symm.trans hafter) (by decide)
          · exact absurd (hmore.symm.trans hrest) (by simp)
        | _ => cases hrest
    | space =>
      rcases effects_space rest with ⟨hnone, -⟩ | ⟨token, more, hmore, hnot⟩
      · exact absurd (hnone.symm.trans h) (by simp)
      · obtain ⟨rfl, -⟩ := List.cons.inj (hmore.symm.trans h)
        exact absurd rfl (hnot content)
    | _ => cases h

end Lead

/-- From these leads on, the token streams come to the same. -/
def Alike (lead lead' : Lead) (tokens tokens' : List Token) : Prop :=
  lead.effects tokens = lead'.effects tokens' ∧ lead.afterAll tokens = lead'.afterAll tokens'

theorem Alike.rfl {lead : Lead} {tokens : List Token} : Alike lead lead tokens tokens :=
  ⟨Eq.refl _, Eq.refl _⟩

theorem Alike.trans {lead lead' lead'' : Lead} {tokens tokens' tokens'' : List Token}
    (h : Alike lead lead' tokens tokens') (h' : Alike lead' lead'' tokens' tokens'') :
    Alike lead lead'' tokens tokens'' :=
  ⟨h.1.trans h'.1, h.2.trans h'.2⟩

theorem Alike.append {lead lead' : Lead} {tokens tokens' more more' : List Token}
    (h : Alike lead lead' tokens tokens')
    (h' : Alike (lead.afterAll tokens) (lead'.afterAll tokens') more more') :
    Alike lead lead' (tokens ++ more) (tokens' ++ more') := by
  refine ⟨?_, by rw [Lead.afterAll_append, Lead.afterAll_append, h'.2]⟩
  rw [Lead.effects_append, Lead.effects_append, h.1, h'.1]

/-- The same tokens in front change nothing. -/
theorem Alike.behind {lead : Lead} {tokens tokens' : List Token} (front : List Token)
    (h : Alike (lead.afterAll front) (lead.afterAll front) tokens tokens') :
    Alike lead lead (front ++ tokens) (front ++ tokens') :=
  Alike.rfl.append h

/-- Nor do the same tokens behind. -/
theorem Alike.before {lead lead' : Lead} {tokens tokens' : List Token}
    (h : Alike lead lead' tokens tokens') (back : List Token) :
    Alike lead lead' (tokens ++ back) (tokens' ++ back) := by
  refine h.append ?_
  rw [h.2]
  exact Alike.rfl

/-- No space stands where one is due already. -/
def Unspaced (lead : Lead) : List Token → Prop
  | [] => True
  | token :: rest => (token = .space → lead ≠ .space) ∧ Unspaced (lead.after token) rest

theorem unspaced_append {lead : Lead} {tokens more : List Token} :
    Unspaced lead (tokens ++ more) ↔
      Unspaced lead tokens ∧ Unspaced (lead.afterAll tokens) more := by
  induction tokens generalizing lead with
  | nil => simp [Unspaced]
  | cons token tokens ih => simp [Unspaced, ih, and_assoc]

/-! ## Printers -/

/-- The directives that are always carried out. -/
def Token.IsFrame (token : Token) : Prop :=
  token = .indent ∨ token = .endIndent ∨ token = .noWrap ∨ token = .endNoWrap

/-- How tokens are carried out one by one. A state rests if no space is due in it,
and then all that counts is how the output ends. -/
structure Printer (State : Type) where
  step : State → Token → State
  Rests : State → Ending → Prop
  text {s : State} {ending : Ending} (content : String) (h : Rests s ending) :
    Rests (step s (.text content)) .content
  newline {s : State} {ending : Ending} (h : Rests s ending) : Rests (step s .newline) .newline
  paragraph {s : State} {ending : Ending} (h : Rests s ending) (hs : ending ≠ .start) :
    Rests (step s .paragraphBreak) .paragraph
  frame {s : State} {ending : Ending} {token : Token} (h : Rests s ending) (ht : token.IsFrame) :
    Rests (step s token) ending
  /-- Nothing is to be left at the start. -/
  paragraph_start {s : State} (h : Rests s .start) : step s .paragraphBreak = s
  ensureNewline {s : State} {ending : Ending} (h : Rests s ending) :
    step s .ensureNewline = if ending = .content then step s .newline else s
  preferParagraph {s : State} {ending : Ending} (h : Rests s ending) :
    step s .preferParagraph = if ending = .content then step s .paragraphBreak else s
  ensureParagraph {s : State} {ending : Ending} (h : Rests s ending) :
    step s .ensureParagraph
      = if ending = .content ∨ ending = .newline then step s .paragraphBreak else s
  /-- A space counts only after something. -/
  space {s : State} {ending : Ending} (h : Rests s ending) (hs : ending ≠ .content) :
    step s .space = s
  space_text {s : State} (content : String) (h : Rests s .content) :
    Rests (step (step s .space) (.text content)) .content
  /-- A space is lost at the end of a line. -/
  space_break {s : State} (h : Rests s .content) :
    step (step s .space) .newline = step s .newline ∧
      step (step s .space) .paragraphBreak = step s .paragraphBreak ∧
      step (step s .space) .ensureNewline = step s .newline ∧
      step (step s .space) .preferParagraph = step s .paragraphBreak ∧
      step (step s .space) .ensureParagraph = step s .paragraphBreak
  space_frame {s : State} {token : Token} (h : Rests s .content) (ht : token.IsFrame) :
    step (step s .space) token = step (step s token) .space

namespace Printer

variable {State : Type} (printer : Printer State)

/-- Carries out tokens in order. -/
def run (s : State) (tokens : List Token) : State := tokens.foldl printer.step s

theorem run_append (s : State) (tokens more : List Token) :
    printer.run s (tokens ++ more) = printer.run (printer.run s tokens) more := List.foldl_append

/-- A state while a lead is open, and the state as it is without the space that is
due. -/
def Stands (lead : Lead) (s t : State) : Prop :=
  printer.Rests t lead.ending ∧ s = if lead = .space then printer.step t .space else t

variable {printer} {lead : Lead} {s t : State}

theorem Stands.step (h : printer.Stands lead s t) (token : Token)
    (hspace : token = .space → lead ≠ .space) :
    printer.Stands (lead.after token) (printer.step s token)
      (printer.run t (lead.effect token)) := by
  obtain ⟨hrests, hs⟩ := h
  by_cases hdue : lead = .space
  · subst hdue
    obtain ⟨hnewline, hparagraph, hensure, hprefer, hleave⟩ := printer.space_break hrests
    rw [if_pos rfl] at hs
    subst hs
    cases token with
    | text content => exact ⟨printer.space_text content hrests, rfl⟩
    | space => exact absurd rfl (hspace rfl)
    | newline => exact ⟨printer.newline hrests, hnewline⟩
    | ensureNewline => exact ⟨printer.newline hrests, hensure⟩
    | paragraphBreak => exact ⟨printer.paragraph hrests (by decide), hparagraph⟩
    | preferParagraph => exact ⟨printer.paragraph hrests (by decide), hprefer⟩
    | ensureParagraph => exact ⟨printer.paragraph hrests (by decide), hleave⟩
    | indent | endIndent | noWrap | endNoWrap =>
      exact ⟨printer.frame hrests (by simp [Token.IsFrame]),
        printer.space_frame hrests (by simp [Token.IsFrame])⟩
  · rw [if_neg hdue] at hs
    subst hs
    cases token with
    | text content =>
      simp only [Lead.effect, if_neg hdue]
      exact ⟨printer.text content hrests, rfl⟩
    | space =>
      cases lead with
      | space => exact absurd rfl hdue
      | tight => exact ⟨hrests, rfl⟩
      | start | line | lines | paragraph => exact ⟨hrests, printer.space hrests (by decide)⟩
    | newline =>
      have hline := printer.newline hrests
      cases lead <;> exact ⟨hline, rfl⟩
    | ensureNewline =>
      have hensure := printer.ensureNewline hrests
      cases lead with
      | space => exact absurd rfl hdue
      | tight => exact ⟨printer.newline hrests, hensure⟩
      | start | line | lines | paragraph => exact ⟨hrests, hensure⟩
    | paragraphBreak =>
      cases lead with
      | space => exact absurd rfl hdue
      | start => exact ⟨hrests, printer.paragraph_start hrests⟩
      | tight | line | lines | paragraph => exact ⟨printer.paragraph hrests (by decide), rfl⟩
    | preferParagraph =>
      have hprefer := printer.preferParagraph hrests
      cases lead with
      | space => exact absurd rfl hdue
      | tight => exact ⟨printer.paragraph hrests (by decide), hprefer⟩
      | start | line | lines | paragraph => exact ⟨hrests, hprefer⟩
    | ensureParagraph =>
      have hleave := printer.ensureParagraph hrests
      cases lead with
      | space => exact absurd rfl hdue
      | tight | line | lines => exact ⟨printer.paragraph hrests (by decide), hleave⟩
      | start | paragraph => exact ⟨hrests, hleave⟩
    | indent | endIndent | noWrap | endNoWrap =>
      exact ⟨printer.frame hrests (by simp [Token.IsFrame]), (if_neg hdue).symm⟩

theorem Stands.run (h : printer.Stands lead s t) {tokens : List Token}
    (hspaces : Unspaced lead tokens) :
    printer.Stands (lead.afterAll tokens) (printer.run s tokens)
      (printer.run t (lead.effects tokens)) := by
  induction tokens generalizing lead s t with
  | nil => exact h
  | cons token tokens ih =>
    rw [Lead.effects, run_append]
    exact ih (h.step token hspaces.1) hspaces.2

/-- From a state at the start, streams that come to the same lead to the same
state. -/
theorem run_of_alike (h : printer.Rests s .start) {tokens tokens' : List Token}
    (halike : Alike .start .start tokens tokens') (hs : Unspaced .start tokens)
    (hs' : Unspaced .start tokens') : printer.run s tokens = printer.run s tokens' := by
  have hstands : printer.Stands .start s s := ⟨h, rfl⟩
  have hrun := (hstands.run hs).2
  have hrun' := (hstands.run hs').2
  rw [hrun, hrun', halike.1, halike.2]

end Printer

/-! ## The token printer -/

namespace Token

/-- A space at the end of a line is taken back when the line ends. -/
theorem Page.breakLines_space (options : TextOptions) (count : Nat) {page : Page}
    (h : page.ending = .content) (hc : page.hasContent = true) :
    (page.step options .space).breakLines options count = page.breakLines options count := by
  simp [Page.step, hc, h, Page.breakLines, isSpace]

/-- The token printer, state by state. -/
def pagePrinter (options : TextOptions) : Printer Page where
  step := Page.step options
  Rests page ending := page.ending = ending ∧ page.hasContent = (ending == .content)
  text content h := by
    simp only [Page.step, Page.write]
    split <;> exact ⟨rfl, rfl⟩
  newline h := ⟨rfl, rfl⟩
  paragraph h hs := by
    rw [Page.step, if_neg (by simpa [h.1] using hs)]
    refine ⟨rfl, ?_⟩
    unfold Page.leaveParagraph
    split
    · next hstart => exact absurd (h.1.symm.trans hstart) hs
    · rfl
    · rfl
  frame h ht := by
    rcases ht with rfl | rfl | rfl | rfl <;> exact h
  paragraph_start h := by simp [Page.step, h.1]
  ensureNewline h := by simp [Page.step, h.1]
  preferParagraph h := by
    simp only [Page.step, h.1, beq_iff_eq]
    split
    · next hc => simp [Page.leaveParagraph, h.1, hc]
    · rfl
  ensureParagraph h := by
    simp only [Page.step, h.1, Bool.or_eq_true, beq_iff_eq]
    split
    · next hc => rcases hc with hc | hc <;> simp [hc]
    · rfl
  space h hs := by simp [Page.step, h.2, hs]
  space_text {s} content h := by
    generalize Page.step options s .space = page
    simp only [Page.step, Page.write]
    split <;> exact ⟨rfl, rfl⟩
  space_break {s} h := by
    have hbreak : ∀ count, _ = s.breakLines options count := fun count =>
      Page.breakLines_space options count h.1 h.2
    have hending : (s.step options .space).ending = .content := by
      have hc : s.hasContent = true := h.2
      simp [Page.step, hc]
    generalize s.step options .space = page at hbreak hending
    simp [Page.step, Page.leaveParagraph, hending, h.1, hbreak]
  space_frame h ht := by
    rcases ht with rfl | rfl | rfl | rfl <;> simp [Page.step, h.2, Page.lengthWith]

/-- Streams that come to the same are laid out in the same way. -/
theorem render_of_alike (options : TextOptions) {tokens tokens' : List Token}
    (halike : Alike .start .start tokens tokens') (hs : Unspaced .start tokens)
    (hs' : Unspaced .start tokens') : render options tokens = render options tokens' := by
  have hrests : (pagePrinter options).Rests ({} : Page) .start := ⟨rfl, rfl⟩
  have hrun : layOut options tokens = layOut options tokens' :=
    Printer.run_of_alike hrests halike hs hs'
  rw [render, render, hrun]

end Token

/-! ## The builder of documents -/

namespace Doc.Builder

/-- Carries out a token, with the builders around the bodies that are open. What stands
for arguments in the token stream is text like any other, so this is what becomes of
a tree only if there are none. -/
def step : List Builder × Builder → Token → List Builder × Builder
  | (around, builder), .text content => (around, builder.write content.toList)
  | (around, builder), .space => (around, builder.putSpace)
  | (around, builder), .newline => (around, builder.newline)
  | (around, builder), .ensureNewline => (around, builder.ensureNewline)
  | (around, builder), .preferParagraph => (around, builder.preferParagraph)
  | (around, builder), .paragraphBreak => (around, builder.leaveParagraph)
  | (around, builder), .ensureParagraph =>
    (around, if builder.ending = .content ∨ builder.ending = .newline then builder.leaveParagraph
      else builder)
  | (around, builder), .noWrap => (around, builder.hold)
  | (around, builder), .endNoWrap => (around, builder.release)
  | (around, builder), .indent =>
    ({ builder with pendingSpace := false } :: around, builder.nested)
  | (outer :: around, builder), .endIndent => (around, outer.closeBody builder)
  | ([], builder), .endIndent => ([], builder)

/-- The space that is due is forgotten when the line ends. -/
theorem hardBreak_putSpace (count : Nat) (ending : Ending) {builder : Builder} :
    builder.putSpace.hardBreak count ending = builder.hardBreak count ending := by
  unfold putSpace
  split <;> rfl

/-- The builder of documents, state by state. -/
def builderPrinter : Printer (List Builder × Builder) where
  step := step
  Rests state ending := state.2.ending = ending ∧ state.2.pendingSpace = false
  text content h := ⟨rfl, pendingSpace_write ..⟩
  newline h := ⟨rfl, pendingSpace_hardBreak ..⟩
  paragraph {s} ending h hs := by
    simp only [step]
    unfold leaveParagraph
    split
    · next hstart => exact absurd (h.1.symm.trans hstart) hs
    · exact ⟨rfl, pendingSpace_hardBreak ..⟩
    · exact ⟨rfl, pendingSpace_hardBreak ..⟩
  frame {s} _ _ h ht := by
    obtain ⟨around, builder⟩ := s
    rcases ht with rfl | rfl | rfl | rfl
    · exact h
    · cases around <;> exact h
    · exact h
    · exact h
  paragraph_start {s} h := by simp [step, leaveParagraph, h.1]
  ensureNewline {s} _ h := by
    simp only [step, ensureNewline, h.1, beq_iff_eq]
    split <;> rfl
  preferParagraph {s} _ h := by
    simp only [step, preferParagraph, h.1, beq_iff_eq]
    split
    · next hc => simp [leaveParagraph, h.1, hc]
    · rfl
  ensureParagraph {s} _ h := by
    simp only [step, h.1]
    split <;> rfl
  space {s} _ h hs := by simp [step, putSpace, h.1, hs]
  space_text content h := ⟨rfl, pendingSpace_write ..⟩
  space_break {s} h := by
    obtain ⟨around, builder⟩ := s
    have hending : builder.putSpace.ending = .content := by
      unfold putSpace
      split <;> exact h.1
    have hbuilder : builder.ending = .content := h.1
    simp [step, newline, ensureNewline, preferParagraph, leaveParagraph, hending, hbuilder,
      hardBreak_putSpace]
  space_frame {s} _ h ht := by
    obtain ⟨around, builder⟩ := s
    have hput : ∀ other : Builder, other.ending = .content →
        other.putSpace = { other with pendingSpace := true } := fun other hother => by
      simp [putSpace, hother]
    have hbuilder : builder.ending = .content := h.1
    rcases ht with rfl | rfl | rfl | rfl
    · simp [step, hput, hbuilder, nested]
    · cases around <;> simp [step, hput, hbuilder, closeBody, resume, push, finish]
    · simp [step, hput, hbuilder, hold]
    · simp [step, hput, hbuilder, release]

/-- Without arguments, what is done to a builder is what its tokens say. -/
theorem run_of_acts {care : Care} {builder last : Builder} {tokens : List Token}
    {entries : List Entry} (h : Acts care builder tokens entries last) (hcare : care = .bare)
    (around : List Builder) : builderPrinter.run (around, builder) tokens = (around, last) := by
  induction h generalizing around with
  | nil => rfl
  | append _ _ ih ih' =>
    rw [Printer.run_append, ih hcare, ih' hcare]
  | text content | literal content =>
    simp [Printer.run, builderPrinter, step, Token.chars]
  | space | paragraph | newline | ensureNewline | preferParagraph => rfl
  | comment content sameline =>
    cases sameline <;> simp [Printer.run, builderPrinter, step, Token.chars]
  | softline h | spaceline h =>
    subst hcare
    simp at h
  | @held _ builder _ _ _ _ ih =>
    rw [List.cons_append, ← List.singleton_append, Printer.run_append, Printer.run_append]
    rw [show builderPrinter.run (around, builder) [.noWrap] = (around, builder.hold) from rfl,
      ih hcare]
    rfl
  | @indented _ builder _ _ _ _ _ _ ih =>
    rw [List.cons_append, ← List.singleton_append, Printer.run_append, Printer.run_append]
    rw [show builderPrinter.run (around, builder) [.indent]
      = ({ builder with pendingSpace := false } :: around, builder.nested) from rfl, ih hcare]
    rfl
  | bracketed hne => exact absurd hcare hne

/-- Without arguments, no space is asked for where one is due. -/
theorem unspaced_of_acts {care : Care} {builder last : Builder} {tokens : List Token}
    {entries : List Entry} (h : Acts care builder tokens entries last) (hcare : care = .bare)
    {around : List Builder} {lead : Lead} {t : List Builder × Builder}
    (hs : builderPrinter.Stands lead (around, builder) t) : Unspaced lead tokens := by
  induction h generalizing around lead t with
  | nil => trivial
  | append h _ ih ih' =>
    have hfirst := ih hcare hs
    have hmid := hs.run hfirst
    rw [run_of_acts h hcare] at hmid
    exact unspaced_append.2 ⟨hfirst, ih' hcare hmid⟩
  | @space _ builder hpending =>
    refine ⟨fun _ hdue => ?_, trivial⟩
    subst hdue hcare
    obtain ⟨⟨hending, -⟩, hput⟩ := hs
    have hnone := hpending (by decide)
    rw [show builder = t.2.putSpace from congrArg Prod.snd hput, putSpace,
      show t.2.ending = .content from hending] at hnone
    simp at hnone
  | text | literal | paragraph | newline | ensureNewline | preferParagraph =>
    simp [Unspaced, Token.chars]
  | comment content sameline => cases sameline <;> simp [Unspaced, Token.chars]
  | softline h | spaceline h =>
    subst hcare
    simp at h
  | held h ih =>
    have hinner := ih hcare (hs.step .noWrap (by simp))
    simpa [Unspaced, unspaced_append] using hinner
  | indented _ _ h ih =>
    have hinner := ih hcare (hs.step .indent (by simp))
    simpa [Unspaced, unspaced_append] using hinner
  | bracketed hne => exact absurd hcare hne

end Doc.Builder

/-! ## Trees that are printed alike -/

/-- A list without arguments, as both printers see it: its tokens are what is done to a
builder, and no space is asked for where one is due. -/
theorem run_ofNodes {items : List Node} (hs : SuitsAll .bare items) (hspaced : Spaced false items) :
    Builder.builderPrinter.run ([], {}) (Token.ofNodes items) = ([], addNodes {} items) ∧
      Unspaced .start (Token.ofNodes items) := by
  have hacts : Acts .bare {} (Token.ofNodes items) (entriesAll items) (addNodes {} items) :=
    acts_addNodes items hs fun _ => ⟨by simp [Builder.Settled], hspaced⟩
  have hstart : Builder.builderPrinter.Stands .start ([], {}) ([], {}) := ⟨⟨rfl, rfl⟩, rfl⟩
  exact ⟨Builder.run_of_acts hacts rfl [], Builder.unspaced_of_acts hacts rfl hstart⟩

/-- Both printers make the same of lists whose tokens come to the same. -/
theorem print_of_alike {items items' : List Node} (hs : SuitsAll .bare items)
    (hspaced : Spaced false items) (hs' : SuitsAll .bare items') (hspaced' : Spaced false items')
    (halike : Alike .start .start (Token.ofNodes items) (Token.ofNodes items')) :
    (∀ options, printTokens options (.list items) = printTokens options (.list items')) ∧
      ∀ options, printDoc options (.list items) = printDoc options (.list items') := by
  obtain ⟨hrun, hspaces⟩ := run_ofNodes hs hspaced
  obtain ⟨hrun', hspaces'⟩ := run_ofNodes hs' hspaced'
  refine ⟨fun options => Token.render_of_alike options halike hspaces hspaces', fun options => ?_⟩
  have hstart : Builder.builderPrinter.Rests ([], {}) .start := ⟨rfl, rfl⟩
  have hsame := Printer.run_of_alike hstart halike hspaces hspaces'
  rw [hrun, hrun', Prod.mk.injEq] at hsame
  rw [printDoc, printDoc, ofNode, ofNode, addNode, addNode, hsame.2]

end LatexFormatter
