import LatexFormatter.Proofs.Printing.Acts
import LatexFormatter.Token.Render

/-
  Directives that open something and directives that close it. In the token stream
  of a tree all that is opened is closed again, the inner before the outer
  (`nested_ofNode`). A page counts the levels of indentation that are open, and the
  constructs without wrapping. While such a stream is laid out, neither count is
  taken down further than it was brought up, and in the end both are what they were
  (`Nested.keeps`).
-/

namespace LatexFormatter.Token

/-- Directives that change neither the output nor the place where it ends. -/
def isSilent : Token → Bool
  | indent | endIndent | noWrap | endNoWrap => true
  | _ => false

/-- The one opens what the other closes. -/
inductive Pair : Token → Token → Prop where
  | indentation : Pair indent endIndent
  | wrapping : Pair noWrap endNoWrap

/-- All that is opened is closed again, the inner before the outer. -/
inductive Nested : List Token → Prop where
  | nil : Nested []
  | single {token : Token} (h : token.isSilent = false) : Nested [token]
  | append {tokens more : List Token} (h : Nested tokens) (hmore : Nested more) :
      Nested (tokens ++ more)
  | around {opening closing : Token} {tokens : List Token} (hpair : Pair opening closing)
      (h : Nested tokens) : Nested (opening :: tokens ++ [closing])

/-- Two pairs are the same or have nothing in common. -/
theorem Pair.eq_or_ne {opening closing opening' closing' : Token} (h : Pair opening closing)
    (h' : Pair opening' closing') :
    (opening' = opening ∧ closing' = closing) ∨
      (opening' ≠ opening ∧ opening' ≠ closing ∧ closing' ≠ opening ∧ closing' ≠ closing) := by
  cases h <;> cases h' <;> simp

theorem Pair.ne {opening closing : Token} (h : Pair opening closing) : opening ≠ closing := by
  cases h <;> simp

theorem Pair.isSilent {opening closing : Token} (h : Pair opening closing) :
    opening.isSilent = true ∧ closing.isSilent = true := by
  cases h <;> exact ⟨rfl, rfl⟩

/-! ## Counting what is open -/

section

variable (options : TextOptions)

/-- What opens and closes nothing leaves both counts as they are. -/
theorem counts_step (page : Page) (token : Token) (h : token.isSilent = false) :
    (page.step options token).indent = page.indent ∧
      (page.step options token).noWrap = page.noWrap := by
  cases token with
  | text content =>
    simp only [Page.step, Page.write]
    split <;> exact ⟨rfl, rfl⟩
  | space | ensureNewline | preferParagraph =>
    simp only [Page.step]
    split <;> exact ⟨rfl, rfl⟩
  | paragraphBreak =>
    simp only [Page.step, Page.leaveParagraph]
    split
    · exact ⟨rfl, rfl⟩
    · split <;> exact ⟨rfl, rfl⟩
  | ensureParagraph =>
    simp only [Page.step, Page.leaveParagraph]
    split
    · split <;> exact ⟨rfl, rfl⟩
    · exact ⟨rfl, rfl⟩
  | newline => exact ⟨rfl, rfl⟩
  | indent | endIndent | noWrap | endNoWrap => cases h

/-- A page counts how many of a pair are open. -/
structure Counts (opening closing : Token) (count : Page → Nat) : Prop where
  pair : Pair opening closing
  opens : ∀ page : Page, count (page.step options opening) = count page + 1
  closes : ∀ page : Page, count (page.step options closing) = count page - 1
  others : ∀ (page : Page) (token : Token), token ≠ opening → token ≠ closing →
    count (page.step options token) = count page

theorem counts_indent : Counts options indent endIndent Page.indent where
  pair := .indentation
  opens _ := rfl
  closes _ := rfl
  others page token hopening hclosing := by
    cases token with
    | indent => exact absurd rfl hopening
    | endIndent => exact absurd rfl hclosing
    | noWrap | endNoWrap => rfl
    | _ => exact (counts_step options page _ rfl).1

theorem counts_noWrap : Counts options noWrap endNoWrap Page.noWrap where
  pair := .wrapping
  opens _ := rfl
  closes _ := rfl
  others page token hopening hclosing := by
    cases token with
    | noWrap => exact absurd rfl hopening
    | endNoWrap => exact absurd rfl hclosing
    | indent | endIndent => rfl
    | _ => exact (counts_step options page _ rfl).2

variable {options}
variable {opening closing : Token} {count : Page → Nat} {tokens more : List Token}

/-- Laid out from any page, the tokens leave the count as it was, and wherever they
close one, more are open than at their start. -/
def Keeps (options : TextOptions) (closing : Token) (count : Page → Nat) (tokens : List Token) :
    Prop :=
  ∀ page : Page, count (tokens.foldl (Page.step options) page) = count page ∧
    ∀ before after, tokens = before ++ closing :: after →
      count page < count (before.foldl (Page.step options) page)

theorem keeps_nil : Keeps options closing count [] := by
  refine fun page => ⟨rfl, fun before after h => ?_⟩
  simp at h

/-- A token in one stream after another is in the first or in the second. -/
theorem append_eq_append_cons {before after : List Token} {token : Token}
    (h : tokens ++ more = before ++ token :: after) :
    (∃ mid, tokens = before ++ token :: mid) ∨
      ∃ mid, before = tokens ++ mid ∧ more = mid ++ token :: after := by
  rcases List.append_eq_append_iff.1 h with ⟨mid, hbefore, hmore⟩ | ⟨mid, htokens, hafter⟩
  · exact Or.inr ⟨mid, hbefore, hmore⟩
  · cases mid with
    | nil => exact Or.inr ⟨[], by simpa using htokens.symm, hafter.symm⟩
    | cons first mid =>
      injection hafter with hfirst
      exact Or.inl ⟨mid, hfirst ▸ htokens⟩

theorem Keeps.append (h : Keeps options closing count tokens)
    (hmore : Keeps options closing count more) : Keeps options closing count (tokens ++ more) := by
  intro page
  obtain ⟨hend, hclose⟩ := h page
  obtain ⟨hend', hclose'⟩ := hmore (tokens.foldl (Page.step options) page)
  rw [hend] at hend' hclose'
  rw [List.foldl_append]
  refine ⟨hend', fun before after hsplit => ?_⟩
  rcases append_eq_append_cons hsplit with ⟨mid, htokens⟩ | ⟨mid, rfl, hmid⟩
  · exact hclose before mid htokens
  · rw [List.foldl_append]
    exact hclose' mid after hmid

/-- A token that is not counted. -/
theorem keeps_singleton {token : Token} (hne : token ≠ closing)
    (hstep : ∀ page : Page, count (page.step options token) = count page) :
    Keeps options closing count [token] := by
  refine fun page => ⟨hstep page, fun before after hsplit => ?_⟩
  cases before with
  | nil =>
    injection hsplit with htoken
    exact absurd htoken hne
  | cons first before => simp at hsplit

/-- In between, one more is open. -/
theorem Keeps.around (hcounts : Counts options opening closing count)
    (h : Keeps options closing count tokens) :
    Keeps options closing count (opening :: tokens ++ [closing]) := by
  intro page
  obtain ⟨hend, hclose⟩ := h (page.step options opening)
  rw [hcounts.opens] at hend hclose
  refine ⟨by simp [hcounts.closes, hend], fun before after hsplit => ?_⟩
  cases before with
  | nil =>
    injection hsplit with hfirst
    exact absurd hfirst hcounts.pair.ne
  | cons first before =>
    injection hsplit with hfirst hrest
    subst hfirst
    rw [List.foldl_cons]
    rcases append_eq_append_cons hrest with ⟨mid, htokens⟩ | ⟨mid, rfl, hmid⟩
    · exact Nat.lt_of_succ_lt (hclose before mid htokens)
    · -- it is the one that closes the pair
      have hnil : mid = [] := by
        have hlength := congrArg List.length hmid
        simp only [List.length_append, List.length_cons, List.length_nil] at hlength
        exact List.length_eq_zero_iff.1 (by omega)
      rw [hnil, List.append_nil, hend]
      exact Nat.lt_succ_self _

/-- What a stream opens it closes again, and never more than that. -/
theorem Nested.keeps (hcounts : Counts options opening closing count) (h : Nested tokens) :
    Keeps options closing count tokens := by
  induction h with
  | nil => exact keeps_nil
  | @single token htoken =>
    obtain ⟨hopening, hclosing⟩ := hcounts.pair.isSilent
    have hne : token ≠ opening := by
      rintro rfl
      simp [htoken] at hopening
    have hne' : token ≠ closing := by
      rintro rfl
      simp [htoken] at hclosing
    exact keeps_singleton hne' fun page => hcounts.others page token hne hne'
  | append _ _ ih ihmore => exact ih.append ihmore
  | @around opening' closing' tokens hpair _ ih =>
    rcases hcounts.pair.eq_or_ne hpair with ⟨rfl, rfl⟩ | ⟨hoo, hoc, hco, hcc⟩
    · exact ih.around hcounts
    · -- another pair is of no consequence
      have hfirst := keeps_singleton hoc fun page => hcounts.others page opening' hoo hoc
      have hlast := keeps_singleton hcc fun page => hcounts.others page closing' hco hcc
      exact (hfirst.append ih).append hlast

end

/-! ## Trees -/

theorem Nested.loud {token : Token} {rest : List Token} (htoken : token.isSilent = false)
    (h : Nested rest) : Nested (token :: rest) :=
  (Nested.single htoken).append h

/-- Acts close all that they open. -/
theorem nested_of_acts {care : Care} {builder last : Doc.Builder} {tokens : List Token}
    {entries : List Entry} (h : Acts care builder tokens entries last) : Nested tokens := by
  induction h with
  | nil | softline => exact .nil
  | append _ _ ih ih' => exact ih.append ih'
  | text | literal | space | spaceline | paragraph | newline | ensureNewline | preferParagraph =>
    exact .single rfl
  | comment content sameline =>
    have hline : Nested [chars ('%' :: content.toList), newline] := .loud rfl (.single rfl)
    cases sameline
    · exact .loud rfl hline
    · exact hline
  | held _ ih => exact ih.around .wrapping
  | indented _ _ _ ih => exact ih.around .indentation
  | bracketed _ _ ih => exact .append (.loud rfl ih) (.single rfl)

/-- The tokens of a tree close all that they open. -/
theorem nested_ofNode (node : Node) : Nested (ofNode node) :=
  nested_of_acts (acts_addNode_free node {})

end LatexFormatter.Token
