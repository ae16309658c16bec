import LatexFormatter.Proofs.Node.Everywhere
import LatexFormatter.Proofs.Printing.Printout
import LatexFormatter.Proofs.Printing.Outline
import Mathlib.Data.List.Chain

/-
  Blanks before line breaks. Both printers put blanks down as they come and take
  them back when the line ends, so a line of the output can end in a blank only if
  the text of a single node has a blank before a line break in it, or starts with a
  line break. No text of a tree that was read does, apart from literal text and the
  names of environments. What the last line ends in is another matter: nothing is
  taken back at the end.
-/

namespace LatexFormatter

/-! ## Texts -/

/-- No line but the last ends in a blank. -/
def LinesTrimmed (cs : List Char) : Prop :=
  cs.IsChain fun c d => isSpace c = true → isLineBreak d = false

instance : DecidablePred LinesTrimmed := fun cs =>
  inferInstanceAs (Decidable (cs.IsChain fun c d => isSpace c = true → isLineBreak d = false))

/-- A text that can be put after any other without leaving a blank before a line
break. -/
structure Clean (cs : List Char) : Prop where
  trimmed : LinesTrimmed cs
  unbroken : ∀ c ∈ cs.head?, isLineBreak c = false

@[simp] theorem clean_nil : Clean [] := ⟨.nil, by simp⟩

theorem linesTrimmed_of_unbroken {cs : List Char} (h : ∀ c ∈ cs, isLineBreak c = false) :
    LinesTrimmed cs := by
  induction cs with
  | nil => exact .nil
  | cons c cs ih =>
    obtain ⟨-, hrest⟩ := List.forall_mem_cons.1 h
    refine List.isChain_cons.2 ⟨fun d hd _ => hrest d (List.mem_of_head? hd), ih hrest⟩

theorem linesTrimmed_of_solid {cs : List Char} (h : ∀ c ∈ cs, isSpace c = false) :
    LinesTrimmed cs := by
  induction cs with
  | nil => exact .nil
  | cons c cs ih =>
    obtain ⟨hc, hrest⟩ := List.forall_mem_cons.1 h
    refine List.isChain_cons.2 ⟨fun _ _ hspace => ?_, ih hrest⟩
    rw [hc] at hspace
    cases hspace

theorem clean_of_blankless {cs : List Char} (h : ∀ c ∈ cs, isBlank c = false) : Clean cs := by
  have hboth : ∀ c ∈ cs, isSpace c = false ∧ isLineBreak c = false := by
    intro c hc
    simpa [isBlank] using h c hc
  exact ⟨linesTrimmed_of_solid fun c hc => (hboth c hc).1,
    fun c hc => (hboth c (List.mem_of_head? hc)).2⟩

theorem clean_of_any {cs : List Char} (h : cs.any isBlank = false) : Clean cs :=
  clean_of_blankless (by simpa using h)

/-- A text that starts with something else than a blank. -/
theorem clean_cons {c : Char} {cs : List Char} (hc : isBlank c = false) (h : LinesTrimmed cs) :
    Clean (c :: cs) := by
  have hboth : isSpace c = false ∧ isLineBreak c = false := by simpa [isBlank] using hc
  refine ⟨List.isChain_cons.2 ⟨fun _ _ hspace => ?_, h⟩, by simpa using hboth.2⟩
  rw [hboth.1] at hspace
  cases hspace

theorem LinesTrimmed.append {xs ys : List Char} (hx : LinesTrimmed xs) (hy : Clean ys) :
    LinesTrimmed (xs ++ ys) :=
  List.isChain_append.2 ⟨hx, hy.trimmed, fun _ _ d hd _ => hy.unbroken d hd⟩

theorem isLineBreak_of_isSpace {c : Char} (h : isSpace c = true) : isLineBreak c = false := by
  simp only [isSpace, Bool.or_eq_true, beq_iff_eq] at h
  rcases h with rfl | rfl <;> rfl

/-- A line that ends loses its blanks. The output is given last character first. -/
theorem LinesTrimmed.breakLines {out : List Char} (h : LinesTrimmed out.reverse) (count : Nat)
    {margin : List Char} (hmargin : ∀ c ∈ margin, isSpace c = true) :
    LinesTrimmed ((out.dropWhile isSpace).reverse ++ (List.replicate count '\n' ++ margin)) := by
  have hnever : ∀ c ∈ margin, isLineBreak c = false := fun c hc =>
    isLineBreak_of_isSpace (hmargin c hc)
  have hbreaks : LinesTrimmed (List.replicate count '\n') :=
    linesTrimmed_of_solid fun c hc => by rw [List.eq_of_mem_replicate hc]; rfl
  have hmargin : Clean margin :=
    ⟨linesTrimmed_of_unbroken hnever, fun c hc => hnever c (List.mem_of_head? hc)⟩
  refine List.isChain_append.2 ⟨?_, hbreaks.append hmargin, ?_⟩
  · rw [← @List.takeWhile_append_dropWhile _ isSpace out, List.reverse_append] at h
    exact List.IsChain.left_of_append h
  · -- what is left does not end in a blank
    intro c hc _ _ hspace
    rw [List.getLast?_reverse] at hc
    have hlast := List.head?_dropWhile_not isSpace out
    rw [Option.mem_def.1 hc] at hlast
    rw [hlast] at hspace
    cases hspace

/-! ## The texts of a tree -/

namespace Node

/-- A node that is no literal text, as it is read: names are names, strings have
characters but no blanks, and a comment is on one line. The name of an
environment, which may span lines, has no blank before a line break. -/
def Plain : Node → Prop
  | list _ => False
  | string content => content ≠ "" ∧ ∀ c ∈ content.toList, isBlank c = false
  | command name _ => IsControlName name
  | environment name _ _ => LinesTrimmed name.toList
  | mathEnvironment name _ => LinesTrimmed name.toList
  | verbatim _ => False
  | verb _ _ => False
  | commentEnvironment _ => False
  | comment content _ => ∀ c ∈ content.toList, isLineBreak c = false
  | _ => True

end Node

theorem clean_tag {front : List Char} (hne : front ≠ []) (hfront : front.any isBlank = false)
    {name : String} (h : LinesTrimmed name.toList) : Clean (front ++ name.toList ++ ['}']) := by
  have hname : LinesTrimmed (name.toList ++ ['}']) := h.append (clean_of_any rfl)
  rw [List.append_assoc]
  induction front with
  | nil => exact absurd rfl hne
  | cons c front ih =>
    obtain ⟨hc, hrest⟩ := Bool.or_eq_false_iff.1 hfront
    refine clean_cons hc ?_
    cases front with
    | nil => exact hname
    | cons d front => exact (ih (List.cons_ne_nil d front) hrest).trimmed

theorem clean_openingTag {name : String} (h : LinesTrimmed name.toList) :
    Clean (openingTag name) :=
  clean_tag (by simp) rfl h

theorem clean_closingTag {name : String} (h : LinesTrimmed name.toList) :
    Clean (closingTag name) :=
  clean_tag (by simp) rfl h

theorem clean_command {name : String} (h : IsControlName name) : Clean ('\\' :: name.toList) := by
  refine clean_cons rfl ?_
  rcases h with ⟨-, hletters, -⟩ | ⟨c, hname, -⟩
  · exact linesTrimmed_of_solid fun c hc => isSpace_of_isLetter (hletters c hc)
  · rw [hname]
    exact .singleton c

theorem clean_comment {content : String} (h : ∀ c ∈ content.toList, isLineBreak c = false) :
    Clean ('%' :: content.toList) :=
  clean_cons rfl (linesTrimmed_of_unbroken h)

theorem clean_mark (mark : Mark) {cs : List Char} (h : LinesTrimmed cs) :
    Clean (mark.char :: cs) := by
  cases mark <;> exact clean_cons rfl h

/-- Whatever text the entry brings is clean. -/
def Entry.IsClean : Entry → Prop
  | text content | literal content => Clean content
  | blank _ => True
  | comment content _ => Clean ('%' :: content.toList)

/-- Entries between two texts. -/
theorem clean_between {opening closing : List Char} {entries : List Entry}
    (hopening : Clean opening) (hclosing : Clean closing) (h : ∀ entry ∈ entries, entry.IsClean) :
    ∀ entry ∈ .text opening :: entries ++ [.text closing], entry.IsClean :=
  List.forall_mem_append.2
    ⟨List.forall_mem_cons.2 ⟨hopening, h⟩, List.forall_mem_singleton.2 hclosing⟩

namespace Node

mutual

/-- Everything that a tree says is clean if what each node says is. -/
theorem clean_entries : ∀ node : Node, node.Everywhere Plain →
    ∀ entry ∈ node.entries, entry.IsClean
  | list _ => fun h => h.1.elim
  | string _ => fun h => List.forall_mem_singleton.2 (clean_of_blankless h.2)
  | whitespace | parbreak => fun _ => List.forall_mem_singleton.2 trivial
  | command _ args => fun h =>
    List.forall_mem_cons.2 ⟨clean_command h.1, clean_entriesArgs args h.2⟩
  | environment _ args body => fun h =>
    clean_between (clean_openingTag h.1) (clean_closingTag h.1)
      (List.forall_mem_append.2 ⟨clean_entriesArgs args h.2.1, clean_entriesAll body h.2.2⟩)
  | mathEnvironment _ body => fun h =>
    clean_between (clean_openingTag h.1) (clean_closingTag h.1) (clean_entriesAll body h.2)
  | inlineMath items | displayMath items | group items | arguments items => fun h =>
    clean_between (clean_of_any rfl) (clean_of_any rfl) (clean_entriesAll items h.2)
  | script mark base => fun h => clean_entriesScript mark base h.2
  | verbatim _ | verb _ _ | commentEnvironment _ => fun h => h.elim
  | comment _ _ => fun h => List.forall_mem_singleton.2 (clean_comment h)

theorem clean_entriesAll : ∀ items : List Node, EverywhereAll Plain items →
    ∀ entry ∈ entriesAll items, entry.IsClean
  | [] => fun _ => List.forall_mem_nil _
  | node :: rest => fun h =>
    List.forall_mem_append.2 ⟨clean_entries node h.1, clean_entriesAll rest h.2⟩

theorem clean_entriesArgs : ∀ args : Option (List Node), EverywhereArgs Plain args →
    ∀ entry ∈ entriesArgs args, entry.IsClean
  | none => fun _ => List.forall_mem_nil _
  | some items => fun h =>
    clean_between (clean_of_any rfl) (clean_of_any rfl) (clean_entriesAll items h)

theorem clean_entriesScript (mark : Mark) : ∀ base : Option Node, EverywhereBase Plain base →
    ∀ entry ∈ entriesScript mark base, entry.IsClean
  | none => fun _ => List.forall_mem_singleton.2 (clean_mark mark .nil)
  | some base => fun h => by
    have hbase := clean_entries base h
    rw [entriesScript]
    cases base.singleChar? with
    | some c => exact List.forall_mem_singleton.2 (clean_mark mark (.singleton c))
    | none =>
      cases base.isGroup with
      | true => exact List.forall_mem_cons.2 ⟨clean_mark mark .nil, hbase⟩
      | false => exact clean_between (clean_mark mark (.singleton '{')) (clean_of_any rfl) hbase

end

end Node

/-! ## Both printers -/

/-- However a printer goes on, it leaves no blank before a line break if everything
that is said is clean. -/
theorem Printout.linesTrimmed {entries : List Entry} {ending : Ending} {out : List Char}
    (h : Printout entries ending out) (hclean : ∀ entry ∈ entries, entry.IsClean) :
    LinesTrimmed out.reverse := by
  have hline : ∀ {margin out : List Char}, (∀ c ∈ margin, isSpace c = true) →
      LinesTrimmed out.reverse →
      LinesTrimmed (margin ++ '\n' :: out.dropWhile isSpace).reverse := by
    intro margin out hmargin hout
    have hreverse : ∀ c ∈ margin.reverse, isSpace c = true := by simpa using hmargin
    simpa using hout.breakLines 1 hreverse
  induction h with
  | start => exact .nil
  | text content _ ih | literal content _ _ _ _ ih =>
    obtain ⟨hentries, hcontent⟩ := List.forall_mem_append.1 hclean
    rw [List.reverse_append, List.reverse_reverse]
    exact (ih hentries).append (hcontent _ (List.mem_singleton_self _))
  | pass broken _ ih => exact ih (List.forall_mem_append.1 hclean).1
  | space _ ih =>
    rw [List.reverse_cons]
    exact (ih hclean).append ⟨.singleton ' ', by simp [isLineBreak]⟩
  | line next margin blank _ ih => exact hline blank (ih hclean)
  | forget _ ih => exact ih hclean
  | comment content sameline margin blank _ _ ih =>
    obtain ⟨hentries, hcomment⟩ := List.forall_mem_append.1 hclean
    apply hline blank
    rw [List.reverse_append, List.reverse_reverse]
    exact (ih hentries).append (hcomment _ (List.mem_singleton_self _))

theorem trimmed_printTokens (options : TextOptions) {items : List Node}
    (h : Node.EverywhereAll Node.Plain items) :
    LinesTrimmed (printTokens options (.list items)).toList := by
  obtain ⟨_, hprints⟩ := printout_tokens options (.list items)
  simpa using hprints.linesTrimmed (Node.clean_entriesAll items h)

theorem trimmed_printDoc (options : LayoutOptions) {items : List Node}
    (h : Node.EverywhereAll Node.Plain items) :
    LinesTrimmed (printDoc options (.list items)).toList := by
  obtain ⟨_, hprints⟩ := printout_doc options (.list items)
  simpa using hprints.linesTrimmed (Node.clean_entriesAll items h)

end LatexFormatter
