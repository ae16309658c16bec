import LatexFormatter.Proofs.Printing.Printout

/-
  Printing changes only blanks. What can be seen of a text is what is left when
  its spaces, tabs and line feeds are deleted. Either printer, with any options
  and for any tree, shows what the plain text of the tree shows
  (`print_visible`): no character is lost, repeated, invented or moved.

  Whatever a printer does is a `Printout`, and each of its steps adds the text of an
  entry, or blanks, or takes blanks away.
-/

namespace LatexFormatter

/-- The characters of a text other than spaces, tabs and line feeds. -/
def visible (cs : List Char) : List Char := cs.filter fun c => !(isSpace c || c == '\n')

@[simp] theorem visible_nil : visible [] = [] := rfl

@[simp] theorem visible_append (xs ys : List Char) :
    visible (xs ++ ys) = visible xs ++ visible ys := by
  simp [visible]

@[simp] theorem visible_cons (c : Char) (cs : List Char) :
    visible (c :: cs) = if isSpace c || c == '\n' then visible cs else c :: visible cs := by
  rw [visible, List.filter_cons]
  cases isSpace c || c == '\n' <;> rfl

theorem visible_reverse (cs : List Char) : visible cs.reverse = (visible cs).reverse := by
  simp [visible]

theorem visible_eq_nil {cs : List Char} (h : ∀ c ∈ cs, isSpace c = true ∨ c = '\n') :
    visible cs = [] := by
  rw [visible, List.filter_eq_nil_iff]
  intro c hc
  rcases h c hc with h | h <;> simp [h]

@[simp] theorem visible_levelText (options : LayoutOptions) (depth : Nat) :
    visible (Doc.levelText options depth) = [] :=
  visible_eq_nil fun _ h => Or.inl (Doc.isSpace_of_mem_levelText h)

/-- Blanks at the end of a text are not seen. -/
theorem visible_dropWhile (out : List Char) :
    visible (out.dropWhile isSpace).reverse = visible out.reverse := by
  rw [visible_reverse, visible_reverse]
  have ht : visible (out.takeWhile isSpace) = [] :=
    visible_eq_nil fun c hc => Or.inl (List.all_eq_true.1 List.all_takeWhile c hc)
  have h := congrArg visible (List.takeWhile_append_dropWhile (p := isSpace) (l := out))
  rw [visible_append, ht, List.nil_append] at h
  rw [h]

/-! ## Both printers -/

/-- What can be seen of the output is what can be seen of the entries. -/
theorem Printout.visible_out {entries : List Entry} {ending : Ending} {out : List Char}
    (h : Printout entries ending out) :
    visible out.reverse = visible (entries.flatMap Entry.content) := by
  induction h with
  | start => rfl
  | text content _ ih => simp [ih, Entry.content]
  | literal content _ _ _ _ ih => simp [ih, Entry.content]
  | pass broken _ ih => cases broken <;> simp [ih, Entry.content, isSpace]
  | space _ ih => simp [ih, isSpace]
  | @line entries ending out next margin blank _ ih =>
    have hmargin : visible margin.reverse = [] :=
      visible_eq_nil fun c hc => Or.inl (blank c (List.mem_reverse.1 hc))
    simp [visible_dropWhile, hmargin, ih]
  | forget _ ih => exact ih
  | @comment entries ending out content sameline margin blank _ _ ih =>
    have hmargin : visible margin.reverse = [] :=
      visible_eq_nil fun c hc => Or.inl (blank c (List.mem_reverse.1 hc))
    rw [List.reverse_append, visible_append, hmargin, List.append_nil, List.reverse_cons,
      visible_append, visible_dropWhile]
    simp [ih, Entry.content]

/-- Whatever the options, either printer shows what the plain text of the tree
shows, in the same order. -/
theorem print_visible (node : Node) (textOptions : TextOptions) (layoutOptions : LayoutOptions) :
    visible (printTokens textOptions node).toList = visible node.displayText.toList ∧
    visible (printDoc layoutOptions node).toList = visible node.displayText.toList := by
  have htext : ∀ {ending : Ending} {output : String},
      Printout node.entries ending output.toList.reverse →
      visible output.toList = visible node.displayText.toList := by
    intro ending output h
    have hout := h.visible_out
    rwa [List.reverse_reverse, Node.flatMap_entries, ← String.toList_ofList (l := node.display)]
      at hout
  obtain ⟨_, htokens⟩ := printout_tokens textOptions node
  obtain ⟨_, hdoc⟩ := printout_doc layoutOptions node
  exact ⟨htext htokens, htext hdoc⟩

end LatexFormatter
