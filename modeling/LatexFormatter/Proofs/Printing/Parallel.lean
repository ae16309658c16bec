import LatexFormatter.Proofs.Printing.Mirror

/-
  A whole tree, printed both ways. Each act keeps the page that its tokens are laid
  out on beside the builder that it changes (`mirrors_of_acts`), whether lines wrap
  or not, and a tree is printed by acts. So what the token printer prints is one way
  of writing the strands of the document (`layBy_written`).
-/

namespace LatexFormatter

open Doc Token Node

section

variable {options : LayoutOptions} {textOptions : TextOptions} {wrap : Bool}
  {rule : Page → List Char → Bool}

/-- Where lines wrap, texts are firm. -/
theorem Care.Admits.firm {care : Care} {content : List Char} (h : care.Admits content)
    (hbare : wrap = true → care = .bare) (hw : wrap = true) : EndsFirm content := by
  rw [hbare hw] at h
  exact h

/-- An act keeps the page and the builder side by side. They stand at the same level,
unless nothing breaks a line. -/
theorem mirrors_of_acts (ht : options.useTabs = true) (hr : WrapsAtSpace wrap rule) {care : Care}
    {builder last : Builder} {tokens : List Token} {entries : List Entry}
    (h : Acts care builder tokens entries last) (hcare : care ≠ .free)
    (hbare : wrap = true → care = .bare) {depth level : Nat} {start : List Char} {page : Page}
    (hlevel : care ≠ .quiet → level = depth)
    (hm : Mirrors options wrap depth level start page builder) :
    Mirrors options wrap depth level start (page.layBy textOptions rule tokens) last := by
  have hwrap : ∀ {care : Care} {depth level : Nat}, (wrap = true → care = .bare) →
      (care ≠ .quiet → level = depth) → wrap = true → level = depth := by
    intro care depth level hbare hlevel hw
    exact hlevel (by simp [hbare hw])
  have hnever : ∀ {care : Care}, (wrap = true → care = .bare) → care ≠ .bare → wrap = false := by
    intro care hbare hne
    cases hw : wrap with
    | false => rfl
    | true => exact absurd (hbare hw) hne
  induction h generalizing depth level start page with
  | nil => exact hm
  | append _ _ ih ih' =>
    rw [Page.layBy_append]
    exact ih' hcare hbare hlevel (ih hcare hbare hlevel hm)
  | text content h | literal content _ _ _ h =>
    exact hm.writeChars ht hr (hwrap hbare hlevel) content (h.firm hbare)
  | space h => exact hm.space textOptions (h hcare)
  | paragraph h => exact hm.paragraphBreak ht (hlevel h)
  | newline h => exact hm.newline ht (hlevel h)
  | ensureNewline h => exact hm.ensureNewline ht (hlevel h)
  | preferParagraph h => exact hm.preferParagraph ht (hlevel h)
  | comment content sameline h hbareFirm =>
    have hfirm : wrap = true → EndsFirm ('%' :: content.toList) := fun hw => hbareFirm (hbare hw)
    rw [Page.layBy_append]
    cases sameline with
    | true =>
      exact (hm.writeChars ht hr (hwrap hbare hlevel) _ hfirm).newline ht (hlevel h)
    | false =>
      exact ((hm.ensureNewline ht (hlevel h)).writeChars ht hr (hwrap hbare hlevel) _
        hfirm).newline ht (hlevel h)
  | softline h =>
    obtain rfl := h.resolve_left hcare
    exact hm.pushSoftline (hnever hbare (by simp))
  | spaceline h hpending hending =>
    obtain rfl := h.resolve_left hcare
    exact hm.pushSpace textOptions (hnever hbare (by simp)) (hpending hcare) hending
  | held _ ih =>
    rw [Page.layBy_append]
    exact (ih hcare hbare hlevel (hm.hold textOptions)).release textOptions
  | indented h hpending _ ih =>
    rw [Page.layBy_append]
    exact hm.closeBody textOptions hpending
      (ih hcare hbare (fun hne => congrArg (· + 1) (hlevel hne)) (hm.openBody textOptions hpending))
  | @bracketed care _ _ _ _ hne _ ih =>
    have hw := hnever hbare hne
    have hquiet : care.inArguments = .quiet := by
      cases care <;> simp_all [Care.inArguments]
    obtain ⟨out, hwritten, hopened⟩ := hm.openArguments hw ht hr
    rw [Page.layBy_append]
    exact Mirrors.closeArguments hw hr hwritten
      (ih (by simp [hquiet]) (by simp [hw]) (by simp [hquiet]) hopened)

theorem mirrors_start (options : LayoutOptions) (wrap : Bool) :
    Mirrors options wrap 0 0 [] {} {} :=
  ⟨rfl, rfl, by simp, rfl, fun _ => rfl, [], Written.nil _, rfl, by simp⟩

/-- The page of a whole tree shows one way of writing the strands of its
document. -/
theorem layBy_written (textOptions : TextOptions) (ht : options.useTabs = true)
    (hr : WrapsAtSpace wrap rule) {care : Care} (hcare : care ≠ .free)
    (hbare : wrap = true → care = .bare) {items : List Node} (hspaced : Spaced false items)
    (hs : SuitsAll care items) :
    Written wrap ((Doc.ofNode (.list items)).strands options {}) []
      (({} : Page).layBy textOptions rule (Token.ofNode (.list items))).out := by
  have hm : Mirrors options wrap 0 0 []
      (({} : Page).layBy textOptions rule (Token.ofNodes items)) (addNodes {} items) :=
    mirrors_of_acts ht hr (acts_addNodes items hs fun _ => ⟨by simp [Builder.Settled], hspaced⟩)
      hcare hbare (fun _ => rfl) (mirrors_start options wrap)
  obtain ⟨out, hwritten, hout, -⟩ := hm.out
  simp only [Doc.ofNode, addNode, Token.ofNode]
  rw [Builder.strands_finish, hout]
  by_cases hpending : (addNodes {} items).pendingSpace = true
  · have hpush : ((addNodes {} items).push (Doc.text " ")).strands options 0
        = (addNodes {} items).strands options 0 ++ [.text [' ']] :=
      Builder.strands_push options 0 (addNodes {} items) (Doc.text " ")
    simp only [hpending, if_true]
    show Written wrap (((addNodes {} items).push (Doc.text " ")).strands options 0) [] (' ' :: out)
    rw [hpush]
    exact hwritten.append (Written.text [' '])
  · simp only [hpending]
    exact hwritten

end

end LatexFormatter
