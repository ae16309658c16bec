import LatexFormatter.Proofs.Doc.Column
import LatexFormatter.Proofs.Printing.Adjacency
import LatexFormatter.Proofs.Printing.Nesting

/-
  What a page keeps about its line, against the line that is really there. Only a
  page's own breaks indent a line; so how many tabs a line starts with is followed
  beside the page, by counting the line feeds that come out (`lineTabs`). The length
  kept for the line is the number of its characters, those tabs counted as wide as
  tabs are, whatever has been wrapped, trimmed or passed over on the way; it is cut
  to a word where tabs are so wide that a word does not hold it. What is open while
  a tree is printed is counted without ever going below zero (`bookkeeping_exact`).
-/

namespace LatexFormatter.Token

/-! ## The line and its tabs -/

/-- The output after the last line feed. -/
def Page.currentLine (page : Page) : List Char := (page.out.takeWhile (· != '\n')).reverse

/-- How many tabs the line starts with after one more token, if now it is `tabs`. A
text with a line feed starts its own line; otherwise there are more line feeds
than before only if the line has been broken. -/
def Page.tabsAfter (options : TextOptions) (page : Page) (tabs : Nat) (token : Token) : Nat :=
  if token.content.contains '\n' then 0
  else if page.out.count '\n' < (page.step options token).out.count '\n' then page.indent
  else tabs

/-- How many tabs the line starts with after several more tokens. -/
def tabsFrom (options : TextOptions) (page : Page) (tabs : Nat) : List Token → Nat
  | [] => tabs
  | token :: rest =>
    tabsFrom options (page.step options token) (page.tabsAfter options tabs token) rest

/-- How many tabs the line starts with that a token stream ends on: the indentation
at the last break, if no text with a line feed has come since. -/
def lineTabs (options : TextOptions) (tokens : List Token) : Nat := tabsFrom options {} 0 tokens

/-- The length that is kept for the line is the given one, cut to a word. -/
def Page.Measures (page : Page) (length : Nat) : Prop :=
  (length < wordLimit → page.lineLength = length) ∧
    (page.out.length < signedLimit → page.lineLength = length % wordLimit)

/-- The line starts with so many tabs, and its length counts each as wide as tabs
are. -/
def Page.Inset (options : TextOptions) (tabs : Nat) (page : Page) : Prop :=
  ∃ rest, page.currentLine = List.replicate tabs '\t' ++ rest ∧
    page.Measures (tabs * options.tabWidth + rest.length)

section

variable {options : TextOptions} {page next : Page} {tabs : Nat} {content : List Char}

theorem Page.Inset.congr (h : page.Inset options tabs) (hout : next.out = page.out)
    (hlength : next.lineLength = page.lineLength) : next.Inset options tabs := by
  obtain ⟨rest, hline, hrest⟩ := h
  refine ⟨rest, by rw [Page.currentLine, hout]; exact hline, ?_⟩
  unfold Page.Measures at hrest ⊢
  rw [hout, hlength]
  exact hrest

theorem inset_breakLines (options : TextOptions) (page : Page) (count : Nat) :
    (page.breakLines options (count + 1)).Inset options page.indent := by
  refine ⟨[], ?_, unsignedWord_of_lt, unsignedWord_eq_mod⟩
  have htabs : '\n' ∉ List.replicate page.indent '\t' := by simp
  have hline := Doc.takeWhile_reverse_append htabs
    (List.replicate (count + 1) '\n' ++ page.out.dropWhile isSpace)
  rw [List.reverse_replicate, ← List.append_assoc] at hline
  rw [Page.currentLine, Page.breakLines, hline]
  simp [List.replicate_succ]

/-- Text on the line makes it longer. -/
theorem Page.Measures.lengthWith {length : Nat} (h : page.Measures length) :
    (length + content.length < wordLimit →
        page.lengthWith content = length + content.length) ∧
      (page.out.length + content.length < signedLimit →
        page.lengthWith content = (length + content.length) % wordLimit) := by
  obtain ⟨hexact, hcut⟩ := h
  refine ⟨fun hlt => ?_, fun hmemory => ?_⟩
  · rw [Page.lengthWith, hexact (by omega), unsignedWord_of_lt hlt]
  · rw [Page.lengthWith, hcut (by omega), unsignedWord_eq_mod hmemory, Nat.mod_add_mod]

theorem Page.Inset.put (h : page.Inset options tabs) (hcontent : '\n' ∉ content) :
    (page.put content).Inset options tabs := by
  obtain ⟨rest, hline, hlength⟩ := h
  refine ⟨rest ++ content, ?_, ?_⟩
  · rw [Page.currentLine, Page.put, Doc.takeWhile_reverse_append hcontent, List.reverse_append,
      List.reverse_reverse, ← List.append_assoc]
    exact congrArg (· ++ content) hline
  · have hlonger := @Page.Measures.lengthWith page content _ hlength
    rw [List.length_append, ← Nat.add_assoc]
    simpa [Page.Measures, Page.put, hcontent, Nat.add_comm content.length] using hlonger

/-- Text over several lines starts the line that it ends on. -/
theorem inset_put_newline (options : TextOptions) (page : Page) (hcontent : '\n' ∈ content) :
    (page.put content).Inset options 0 := by
  refine ⟨(content.reverse.takeWhile (· != '\n')).reverse, ?_, ?_⟩
  · rw [Page.currentLine, Page.put, Doc.takeWhile_reverse_append_newline hcontent]
    rfl
  · have hshort := (List.takeWhile_sublist (l := content.reverse) (· != '\n')).length_le
    have hlimit := wordLimit_eq
    rw [List.length_reverse] at hshort
    refine ⟨fun _ => by simp [Page.put, hcontent], fun hmemory => ?_⟩
    simp only [Page.put, List.length_append, List.length_reverse] at hmemory
    rw [Nat.mod_eq_of_lt (by simp only [List.length_reverse]; omega)]
    simp [Page.put, hcontent]

/-! ## Line feeds -/

theorem count_newline_breakLines (options : TextOptions) (page : Page) (count : Nat) :
    (page.breakLines options count).out.count '\n' = page.out.count '\n' + count := by
  have hblanks : (page.out.takeWhile isSpace).count '\n' = 0 := by
    refine List.count_eq_zero.2 fun hmem => ?_
    have hspace := List.mem_takeWhile_imp hmem
    cases hspace
  have hout := congrArg (List.count '\n')
    (List.takeWhile_append_dropWhile (p := isSpace) (l := page.out))
  rw [List.count_append, hblanks] at hout
  have htabs : (List.replicate page.indent '\t').count '\n' = 0 := by simp [List.count_replicate]
  simp only [Page.breakLines, List.count_append, List.count_replicate_self, htabs]
  omega

theorem count_newline_put (page : Page) (content : List Char) :
    (page.put content).out.count '\n' = page.out.count '\n' + content.count '\n' := by
  simp [Page.put, Nat.add_comm]

/-! ## Step by step -/

/-- What a token can do to the line of a page: leave it as it is, put a space on it,
start another, or put its text on this line or the next. -/
inductive Page.Turns (options : TextOptions) (page : Page) (token : Token) (next : Page) : Prop
  | stays (htoken : token.content = []) (hout : next.out = page.out)
      (hlength : next.lineLength = page.lineLength)
  | space (htoken : token.content = []) (hout : next.out = (page.put [' ']).out)
      (hlength : next.lineLength = (page.put [' ']).lineLength)
  | breaks (htoken : token.content = []) (count : Nat)
      (hout : next.out = (page.breakLines options (count + 1)).out)
      (hlength : next.lineLength = (page.breakLines options (count + 1)).lineLength)
  | text (hnext : next = page.put token.content)
  | wraps (hnext : next = (page.breakLines options 1).put token.content)

theorem turns_leaveParagraph {token : Token} (htoken : token.content = [])
    (hending : page.ending ≠ .start) (ending : Ending) :
    page.Turns options token { page.leaveParagraph options with ending := ending } := by
  unfold Page.leaveParagraph
  split
  · next hstart => exact absurd hstart hending
  · exact .breaks htoken 0 rfl rfl
  · exact .breaks htoken 1 rfl rfl

theorem turns_step (options : TextOptions) (page : Page) (token : Token) :
    page.Turns options token (page.step options token) := by
  cases token with
  | text content =>
    simp only [Page.step, Page.write]
    split
    · exact .wraps rfl
    · exact .text rfl
  | space =>
    simp only [Page.step]
    split
    · exact .space rfl rfl rfl
    · exact .stays rfl rfl rfl
  | newline => exact .breaks rfl 0 rfl rfl
  | ensureNewline =>
    simp only [Page.step]
    split
    · exact .breaks rfl 0 rfl rfl
    · exact .stays rfl rfl rfl
  | preferParagraph =>
    simp only [Page.step]
    split
    · exact .breaks rfl 1 rfl rfl
    · exact .stays rfl rfl rfl
  | paragraphBreak =>
    simp only [Page.step]
    split
    · exact .stays rfl rfl rfl
    · next hstart => exact turns_leaveParagraph rfl (by simpa using hstart) .paragraph
  | ensureParagraph =>
    simp only [Page.step]
    split
    · next hbreak =>
      refine turns_leaveParagraph rfl ?_ .paragraph
      intro hstart
      simp [hstart] at hbreak
    · exact .stays rfl rfl rfl
  | indent | endIndent | noWrap | endNoWrap => exact .stays rfl rfl rfl

theorem tabsAfter_newline {token : Token} (h : '\n' ∈ token.content) :
    page.tabsAfter options tabs token = 0 :=
  if_pos (List.contains_iff_mem.2 h)

theorem tabsAfter_break {token : Token} (h : '\n' ∉ token.content)
    (hcount : page.out.count '\n' < (page.step options token).out.count '\n') :
    page.tabsAfter options tabs token = page.indent := by
  rw [Page.tabsAfter, if_neg (by simpa using h), if_pos hcount]

theorem tabsAfter_same {token : Token} (h : '\n' ∉ token.content)
    (hcount : (page.step options token).out.count '\n' = page.out.count '\n') :
    page.tabsAfter options tabs token = tabs := by
  rw [Page.tabsAfter, if_neg (by simpa using h), if_neg (by omega)]

/-- Every token keeps the length of the line right. -/
theorem Page.Inset.step (h : page.Inset options tabs) (token : Token) :
    (page.step options token).Inset options (page.tabsAfter options tabs token) := by
  cases turns_step options page token with
  | stays htoken hout hlength =>
    rw [tabsAfter_same (by simp [htoken]) (by rw [hout])]
    exact h.congr hout hlength
  | space htoken hout hlength =>
    rw [tabsAfter_same (by simp [htoken]) (by rw [hout, count_newline_put]; rfl)]
    exact (h.put (by decide)).congr hout hlength
  | breaks htoken count hout hlength =>
    rw [tabsAfter_break (by simp [htoken]) (by rw [hout, count_newline_breakLines]; omega)]
    exact (inset_breakLines options page count).congr hout hlength
  | text hnext =>
    by_cases hmem : '\n' ∈ token.content
    · rw [tabsAfter_newline hmem, hnext]
      exact inset_put_newline options page hmem
    · have hnone := List.count_eq_zero.2 hmem
      rw [tabsAfter_same hmem (by rw [hnext, count_newline_put, hnone]; rfl), hnext]
      exact h.put hmem
  | wraps hnext =>
    by_cases hmem : '\n' ∈ token.content
    · rw [tabsAfter_newline hmem, hnext]
      exact inset_put_newline options _ hmem
    · have hmore : page.out.count '\n' < (page.step options token).out.count '\n' := by
        rw [hnext, count_newline_put, count_newline_breakLines]
        omega
      rw [tabsAfter_break hmem hmore, hnext]
      exact (inset_breakLines options page 0).put hmem

theorem Page.Inset.foldl (h : page.Inset options tabs) (tokens : List Token) :
    (tokens.foldl (Page.step options) page).Inset options (tabsFrom options page tabs tokens) := by
  induction tokens generalizing page tabs with
  | nil => exact h
  | cons token rest ih => exact ih (h.step token)

theorem inset_layOut (options : TextOptions) (tokens : List Token) :
    (layOut options tokens).Inset options (lineTabs options tokens) := by
  have hstart : ({} : Page).Inset options 0 := ⟨[], rfl, by simp [Page.Measures]⟩
  exact hstart.foldl tokens

end

-- a word that has been wrapped to an indented line: eleven columns, of which eight are a tab
example :
    let tokens := [indent, newline, text "aaa", space, text "bbb"]
    lineTabs ⟨12, 8⟩ tokens = 1 ∧ (layOut ⟨12, 8⟩ tokens).currentLine = ['\t', 'b', 'b', 'b'] ∧
      (layOut ⟨12, 8⟩ tokens).lineLength = 11 := by decide

end LatexFormatter.Token
