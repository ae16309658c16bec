import LatexFormatter.Proofs.Doc.Filling

/-
  Both printers wrap prose in the same way, at every width. The token printer
  decides when a word arrives; the layout engine decides one word ahead, when it
  prints the space before it. Word by word the two come to the same line and the
  same column, so both give the greedy wrapping of the prose (`prose_wraps`).
-/

namespace LatexFormatter

/-! ## The token printer -/

namespace Token

/-- The page after a word has been written. -/
abbrev Page.afterWord (column : Nat) (word : Word) (out : List Char) : Page :=
  { out := word.chars.reverse ++ out, lineLength := column, hasContent := true, ending := .content }

/-- A line that counts only characters that have been written is never cut. -/
theorem Page.lengthWith_eq (page : Page) (h : page.lineLength ≤ page.out.length)
    (content : List Char) : page.lengthWith content = page.lineLength + content.length :=
  unsignedWord_of_le (Nat.add_le_add_right h _)

theorem Page.lengthWith_fresh {page : Page} (h : page.lineLength = 0) (content : List Char) :
    page.lengthWith content = content.length := by
  rw [page.lengthWith_eq (by omega), h, Nat.zero_add]

/-- A word behind a space stays on the line if it has room there. -/
theorem Page.write_word (options : TextOptions) {column : Nat} (word next : Word)
    {out : List Char} (hle : column ≤ (word.chars.reverse ++ out).length) :
    (((Page.afterWord column word out).step options .space).step options
        (.text (String.ofList next.chars)))
      = if column + 1 + next.chars.length ≤ options.maxWidth then
          Page.afterWord (column + 1 + next.chars.length) next (' ' :: (word.chars.reverse ++ out))
        else Page.afterWord next.chars.length next ('\n' :: (word.chars.reverse ++ out)) := by
  let spaced : Page := { Page.afterWord (column + 1) word out with
    out := ' ' :: (word.chars.reverse ++ out) }
  have hspace : (Page.afterWord column word out).step options .space = spaced := by
    simp [Page.step, (Page.afterWord column word out).lengthWith_eq hle, spaced]
  have hlength : spaced.lengthWith next.chars = column + 1 + next.chars.length :=
    spaced.lengthWith_eq (Nat.succ_le_succ hle) next.chars
  rw [hspace]
  by_cases hfit : column + 1 + next.chars.length ≤ options.maxWidth
  · simp [hfit, Page.step, Page.write, Page.wraps, Page.put, next.newline_notMem, hlength,
      Nat.not_lt.2 hfit, spaced]
  · simp [hfit, Page.step, Page.write, Page.wraps, Page.put, next.newline_notMem, next.leads,
      hlength, Page.lengthWith_fresh, Nat.lt_of_not_le hfit, Page.breakLines, isSpace,
      word.dropWhile_reverse_append, spaced]

/-- A word that starts a paragraph leaves a blank line before it. -/
theorem Page.write_paragraph (options : TextOptions) (column : Nat) (word next : Word)
    (out : List Char) :
    (((Page.afterWord column word out).step options .paragraphBreak).step options
        (.text (String.ofList next.chars)))
      = Page.afterWord next.chars.length next ('\n' :: '\n' :: (word.chars.reverse ++ out)) := by
  simp [Page.step, Page.leaveParagraph, Page.write, Page.wraps, Page.put, next.newline_notMem,
    Page.breakLines, Page.lengthWith_fresh, word.dropWhile_reverse_append]

/-- What follows a word is wrapped greedily from any column on. -/
theorem foldl_followers (options : TextOptions) {column : Nat} (word : Word) {out : List Char}
    (hle : column ≤ (word.chars.reverse ++ out).length) (followers : Followers) :
    ((ofNodes followers.nodes).foldl (Page.step options) (Page.afterWord column word out)).out
      = (followers.filled options.maxWidth column).reverse ++ (word.chars.reverse ++ out) := by
  induction followers generalizing column word out with
  | nil => simp [Followers.nodes, ofNodes, Followers.filled]
  | cons follower rest ih =>
    obtain ⟨seam, next⟩ := follower
    cases seam with
    | space =>
      have htokens : ofNodes (Followers.nodes ((.space, next) :: rest))
          = .space :: .text (String.ofList next.chars) :: ofNodes (Followers.nodes rest) := by
        simp [Followers.nodes, Seam.node, ofNodes, ofNode]
      rw [htokens, List.foldl_cons, List.foldl_cons, Page.write_word options word next hle]
      simp only [List.length_append, List.length_reverse] at hle
      by_cases hfit : column + 1 + next.chars.length ≤ options.maxWidth
      · rw [if_pos hfit, ih next (by simp; omega)]
        simp [Followers.filled, hfit]
      · rw [if_neg hfit, ih next (by simp)]
        simp [Followers.filled, hfit]
    | blankLine =>
      have htokens : ofNodes (Followers.nodes ((.blankLine, next) :: rest))
          = .paragraphBreak :: .text (String.ofList next.chars)
              :: ofNodes (Followers.nodes rest) := by
        simp [Followers.nodes, Seam.node, ofNodes, ofNode]
      rw [htokens, List.foldl_cons, List.foldl_cons, Page.write_paragraph, ih next (by simp)]
      simp [Followers.filled]

end Token

theorem printTokens_prose (options : TextOptions) (prose : Prose) :
    printTokens options (.list (.string (String.ofList prose.first.first.chars)
      :: prose.followers.nodes)) = String.ofList (prose.wrapped options.maxWidth) := by
  have hfirst : Token.Page.step options {} (.text (String.ofList prose.first.first.chars))
      = Token.Page.afterWord prose.first.first.chars.length prose.first.first [] := by
    simp [Token.Page.step, Token.Page.write, Token.Page.wraps, Token.Page.put,
      prose.first.first.newline_notMem, Token.Page.lengthWith_fresh]
  have hfold := Token.foldl_followers options prose.first.first
    (show prose.first.first.chars.length ≤ (prose.first.first.chars.reverse ++ []).length by simp)
    prose.followers
  rw [printTokens, Token.render, Token.layOut, Token.ofNode, Token.ofNodes, Token.ofNode,
    List.cons_append, List.nil_append, List.foldl_cons, hfirst, hfold, prose.wrapped_eq]
  simp

/-! ## The layout engine -/

namespace Doc

theorem multiline_of_notMem {content : List Char} (h : '\n' ∉ content) :
    multiline content = chars content := by
  have hpieces : pieces content = [content] := by
    induction content with
    | nil => rfl
    | cons c cs ih =>
      have hc : c ≠ '\n' := fun hc => h (by simp [hc])
      simp [pieces, hc, ih fun hmem => h (by simp [hmem])]
  rw [multiline, hpieces]

/-- The builder after a word has been written. -/
abbrev Builder.afterWord (word : Word) (parts : List Doc) : Builder :=
  { ending := .content, parts := parts, piece := [chars word.chars] }

/-- Words become the pieces of one fill, the last of which is left open. -/
theorem addNodes_followers (word : Word) (parts : List Doc) (followers : Followers) :
    ∃ last finished,
      addNodes (Builder.afterWord word parts) followers.nodes = Builder.afterWord last finished ∧
        (concat [chars last.chars] :: finished).reverse
          = parts.reverse ++ fillOf word followers := by
  induction followers generalizing word parts with
  | nil => exact ⟨word, parts, rfl, by simp [fillOf]⟩
  | cons follower rest ih =>
    obtain ⟨seam, next⟩ := follower
    cases seam with
    | space =>
      have hadd : addNodes (Builder.afterWord word parts) (Followers.nodes ((.space, next) :: rest))
          = addNodes (Builder.afterWord next (space :: concat [chars word.chars] :: parts))
              (Followers.nodes rest) := by
        simp [Followers.nodes, Seam.node, addNodes, addNode, Builder.putSpace, Builder.write,
          Builder.resolveSpace, Builder.separate, Builder.push, next.leads,
          multiline_of_notMem next.newline_notMem]
      obtain ⟨last, finished, hlast, hparts⟩ :=
        ih next (space :: concat [chars word.chars] :: parts)
      exact ⟨last, finished, by rw [hadd, hlast], by simp [hparts, fillOf]⟩
    | blankLine =>
      have hadd : addNodes (Builder.afterWord word parts)
            (Followers.nodes ((.blankLine, next) :: rest))
          = addNodes (Builder.afterWord next
              (empty :: concat [chars word.chars, hardline, hardline] :: parts))
              (Followers.nodes rest) := by
        simp [Followers.nodes, Seam.node, addNodes, addNode, Builder.leaveParagraph,
          Builder.hardBreak, Builder.write, Builder.resolveSpace, Builder.separate, Builder.push,
          multiline_of_notMem next.newline_notMem, List.replicate]
      obtain ⟨last, finished, hlast, hparts⟩ :=
        ih next (empty :: concat [chars word.chars, hardline, hardline] :: parts)
      exact ⟨last, finished, by rw [hadd, hlast], by simp [hparts, fillOf]⟩

/-- Prose becomes one fill, unless it is a single word. -/
theorem ofNode_prose (word : Word) (followers : Followers) :
    ofNode (.list (.string (String.ofList word.chars) :: followers.nodes))
      = if followers.isEmpty then chars word.chars else fill (fillOf word followers) := by
  have hwrite : addNode {} (.string (String.ofList word.chars)) = Builder.afterWord word [] := by
    simp [addNode, Builder.write, Builder.resolveSpace, Builder.push,
      multiline_of_notMem word.newline_notMem]
  cases followers with
  | nil =>
    rw [ofNode, addNode, addNodes, hwrite]
    rfl
  | cons follower rest =>
    obtain ⟨last, finished, hlast, hparts⟩ := addNodes_followers word [] (follower :: rest)
    rw [List.reverse_nil, List.nil_append] at hparts
    rw [ofNode, addNode, addNodes, hwrite, hlast, ← hparts]
    cases finished with
    | nil =>
      -- there is more than one piece
      exfalso
      obtain ⟨seam, next⟩ := follower
      cases seam <;> simp [fillOf] at hparts
    | cons part finished => rfl

/-- A fill of words has no groups to be marked. -/
theorem isLinear_fillOf (word : Word) (followers : Followers) :
    (fill (fillOf word followers)).isLinear = true ∧
      (fill (fillOf word followers)).breaksNoGroup = true := by
  show allLinear (fillOf word followers) = true ∧ allBreakNoGroup (fillOf word followers) = true
  induction followers generalizing word with
  | nil => exact ⟨rfl, rfl⟩
  | cons follower rest ih =>
    obtain ⟨seam, next⟩ := follower
    obtain ⟨hlinear, hunforced⟩ := ih next
    cases seam with
    | space | blankLine => exact ⟨hlinear, hunforced⟩

/-- The text of a document without groups. -/
theorem render_of_prints {options : LayoutOptions} {doc : Doc} {out : List Char}
    (hl : doc.isLinear = true) (hc : doc.breaksNoGroup = true)
    (hp : Prints options 0 [] [⟨{}, .broken, doc⟩] out) :
    (doc.render options).text = String.ofList out.reverse := by
  have hrun := hp (Nat.le_refl 0) false
  rw [render, initial, propagateBreaks_of_breaksNoGroup doc hl hc]
  exact congrArg (fun out => String.ofList out.reverse) hrun

end Doc

theorem printDoc_prose {options : LayoutOptions} (hwidth : options.printWidth < signedLimit)
    (prose : Prose) :
    printDoc options (.list (.string (String.ofList prose.first.first.chars)
      :: prose.followers.nodes)) = String.ofList (prose.wrapped options.printWidth) := by
  rw [printDoc, Doc.ofNode_prose, prose.wrapped_eq]
  generalize prose.first.first = word
  generalize prose.followers = followers
  cases followers with
  | nil =>
    have hword : Doc.Prints options 0 [] [⟨{}, .broken, .chars word.chars⟩]
        (word.chars.reverse ++ []) := Doc.prints_chars word.newline_notMem Doc.prints_nil
    rw [List.isEmpty_nil, if_pos rfl, Doc.render_of_prints rfl rfl hword]
    simp [Followers.filled]
  | cons follower rest =>
    obtain ⟨hlinear, hunforced⟩ := Doc.isLinear_fillOf word (follower :: rest)
    have hfill := Doc.prints_fillOf hwidth .broken 0 [] word (follower :: rest)
    rw [List.isEmpty_cons, if_neg (by simp), Doc.render_of_prints hlinear hunforced hfill]
    simp

/-! ## Both printers -/

theorem formatText_of_read {options : TextOptions} {content : String} {node : Node}
    (hvalid : options.validate = .ok ()) (hread : parseNormalized content = .ok node) :
    formatText options (.text content) = .ok (printTokens options node) := by
  have hresolve : (Source.text content).resolve = .ok node := hread
  rw [formatText, hvalid, hresolve]
  rfl

theorem formatLayout_of_read {options : LayoutOptions} {content : String} {node : Node}
    (hvalid : options.validate = .ok ()) (hread : parseNormalized content = .ok node) :
    formatLayout options (.text content) = .ok (printDoc options node) := by
  have hresolve : (Source.text content).resolve = .ok node := hread
  rw [formatLayout, hvalid, hresolve]
  rfl

/-- On prose both printers give the greedy wrapping, at every width: no line is
longer than the width or the longest word, and the words are unchanged. -/
theorem prose_wraps (prose : Prose) {width : Nat} (hpos : 1 ≤ width) (hlimit : width < 2 ^ 63)
    {text : TextOptions} (htext : text.maxWidth = width) (htab : text.tabWidth ≠ 0)
    {layout : LayoutOptions} (hlayout : layout.printWidth = width) (htabs : layout.tabWidth ≠ 0) :
    formatText text (.text prose.source) = .ok (String.ofList (prose.wrapped width)) ∧
      formatLayout layout (.text prose.source) = .ok (String.ofList (prose.wrapped width)) ∧
      (∀ line ∈ (prose.wrapped width).splitOn '\n', line.length ≤ max width prose.longest) ∧
      wordsOf (prose.wrapped width) = prose.words.map Word.chars := by
  have hread := prose.parseNormalized_source
  have hne : width ≠ 0 := by omega
  refine ⟨?_, ?_, fun _ => Prose.length_line_le, prose.wordsOf_wrapped width⟩
  · have hvalid : text.validate = .ok () := by
      simp only [TextOptions.validate, requirePositive, htext, beq_iff_eq, hne, htab, if_false]
      rfl
    rw [formatText_of_read hvalid hread, printTokens_prose, htext]
  · have hvalid : layout.validate = .ok () := by
      simp only [LayoutOptions.validate, requirePositive, hlayout, beq_iff_eq, hne, htabs, if_false]
      rfl
    have hwidth : layout.printWidth < signedLimit := by
      rw [hlayout]
      exact hlimit
    rw [formatLayout_of_read hvalid hread, printDoc_prose hwidth, hlayout]

/-- Two paragraphs, with a word that is wider than a line of five columns. -/
def Prose.sample : Prose where
  first :=
    { first := ⟨['a', 'b'], List.all_eq_true.1 rfl, rfl⟩
      rest := [⟨['c'], List.all_eq_true.1 rfl, rfl⟩,
        ⟨['d', 'e', 'f', 'g', 'h', 'i'], List.all_eq_true.1 rfl, rfl⟩,
        ⟨['j'], List.all_eq_true.1 rfl, rfl⟩] }
  rest :=
    [{ first := ⟨['k'], List.all_eq_true.1 rfl, rfl⟩
       rest := [⟨['l'], List.all_eq_true.1 rfl, rfl⟩] }]

theorem prose_wraps_sample :
    Prose.sample.source = "ab c defghi j\n\nk l" ∧
      String.ofList (Prose.sample.wrapped 5) = "ab c\ndefghi\nj\n\nk l" ∧
      formatText { maxWidth := 5 } (.text Prose.sample.source)
        = .ok (String.ofList (Prose.sample.wrapped 5)) ∧
      formatLayout { printWidth := 5 } (.text Prose.sample.source)
        = .ok (String.ofList (Prose.sample.wrapped 5)) ∧
      (∀ line ∈ (Prose.sample.wrapped 5).splitOn '\n', line.length ≤ 6) ∧
      wordsOf (Prose.sample.wrapped 5) = Prose.sample.words.map Word.chars :=
  ⟨rfl, rfl, prose_wraps Prose.sample (by decide) (by decide) rfl (by decide) rfl (by decide)⟩

end LatexFormatter
