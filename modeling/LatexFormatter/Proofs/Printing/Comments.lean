import Mathlib.Data.List.Basic
import LatexFormatter.Node.Relations
import LatexFormatter.Proofs.Printing.Visible

/-
  Nothing is ever commented out. Whatever a printer writes, the text of each comment
  of the tree is followed by a line feed at once, so nothing that comes after it is
  on its line; and a comment that does not share its line is on a line that has
  nothing before it but blanks (`comments_end_their_lines`). Where a comment stands
  in the output is told by what can be seen before and after it.

  The proof follows the steps that make a `Printout`. Lines are shortened only by the
  blanks at their end, which do not reach back over a line feed, so a comment that
  has ended its line stays as it is.
-/

namespace LatexFormatter

/-! ## Passages -/

/-- A part of the text of a tree: a comment, or text between comments. -/
inductive Passage where
  | plain (content : List Char)
  | comment (content : String) (sameline : Bool)
  deriving Repr, DecidableEq

/-- The plain text of a passage. -/
def Passage.text : Passage → List Char
  | plain content => content
  | comment content _ => '%' :: content.toList ++ ['\n']

/-- What a comment says, and whether it shares its line. -/
def Passage.comment? : Passage → Option (String × Bool)
  | .comment content sameline => some (content, sameline)
  | .plain _ => none

/-- An entry as a passage. -/
def Entry.passage : Entry → Passage
  | .comment content sameline => .comment content sameline
  | entry => .plain entry.content

theorem Entry.text_passage (entry : Entry) : entry.passage.text = entry.content := by
  cases entry <;> rfl

/-- The plain text of a node, cut at its comments. -/
def Node.passages (node : Node) : List Passage := node.entries.map Entry.passage

/-- The passages of a tree make up its plain text. -/
theorem flatMap_passages (entries : List Entry) :
    (entries.map Entry.passage).flatMap Passage.text = entries.flatMap Entry.content := by
  rw [List.flatMap_map, List.flatMap_congr fun entry _ => Entry.text_passage entry]

/-! ## The text of a comment in the output -/

/-- A comment as it is printed, without the blanks at its end. -/
def printedComment (content : String) : List Char :=
  '%' :: (content.toList.reverse.dropWhile isSpace).reverse

theorem visible_printedComment (content : String) :
    visible (printedComment content) = visible ('%' :: content.toList) := by
  have h := visible_dropWhile content.toList.reverse
  rw [List.reverse_reverse] at h
  simp [printedComment, h]

/-- The percent sign stops the removal of blanks. -/
theorem dropWhile_comment (content : String) (out : List Char) :
    (('%' :: content.toList).reverse ++ out).dropWhile isSpace
      = (printedComment content).reverse ++ out := by
  have hpercent : isSpace '%' = false := by decide
  rw [List.reverse_cons, List.append_assoc, List.dropWhile_append]
  split
  · next hempty =>
    rw [List.isEmpty_iff] at hempty
    simp [printedComment, hempty, hpercent]
  · simp [printedComment]

/-- Blanks are removed up to the last line feed at most. -/
theorem exists_dropWhile_line (later rest : List Char) :
    ∃ later', (later ++ '\n' :: rest).dropWhile isSpace = later' ++ '\n' :: rest := by
  induction later with
  | nil => exact ⟨[], rfl⟩
  | cons c later ih =>
    rw [List.cons_append, List.dropWhile_cons]
    split
    · exact ih
    · exact ⟨c :: later, rfl⟩

/-! ## The line that a comment is put on -/

/-- There is nothing but blanks on the last line of the output, which is given last
character first. -/
def FreshLine (out : List Char) : Prop := ∀ c ∈ (out.dropWhile isSpace).head?, c = '\n'

theorem FreshLine.line {margin : List Char} (h : ∀ c ∈ margin, isSpace c = true)
    (out : List Char) : FreshLine (margin ++ '\n' :: out) := by
  have hdrop : (margin ++ '\n' :: out).dropWhile isSpace = '\n' :: out := by
    rw [List.dropWhile_append_of_pos h]
    rfl
  intro c hc
  rw [hdrop] at hc
  simpa using hc.symm

/-- The text ends where a line has been started, or has nothing in it. -/
def EndsOnBlanks (before : List Char) : Prop :=
  ∃ lines blanks, before = lines ++ blanks ∧ (∀ c ∈ blanks, isSpace c = true) ∧
    (lines = [] ∨ lines.getLast? = some '\n')

theorem FreshLine.endsOnBlanks {out : List Char} (h : FreshLine out) :
    EndsOnBlanks out.reverse := by
  refine ⟨(out.dropWhile isSpace).reverse, (out.takeWhile isSpace).reverse, ?_, ?_, ?_⟩
  · rw [← List.reverse_append, List.takeWhile_append_dropWhile]
  · intro c hc
    exact List.all_eq_true.1 List.all_takeWhile c (List.mem_reverse.1 hc)
  · cases hdrop : out.dropWhile isSpace with
    | nil => exact .inl rfl
    | cons c rest =>
      have hc : c = '\n' := h c (by simp [hdrop])
      rw [hc]
      exact .inr (by simp)

/-! ## Comments in the output -/

variable {passages : List Passage} {out : List Char}

/-- Each comment stands in the output, which is given last character first, with a
line feed behind it. What can be seen before it is what the passages before it
show, and unless it shares its line, that line is a fresh one. -/
def CommentsEnd (passages : List Passage) (out : List Char) : Prop :=
  ∀ front content sameline back, passages = front ++ .comment content sameline :: back →
    ∃ later earlier, out = later ++ '\n' :: ((printedComment content).reverse ++ earlier) ∧
      visible earlier.reverse = visible (front.flatMap Passage.text) ∧
      (sameline = false → FreshLine earlier)

/-- Where a passage lies in a list that one more has been put behind. -/
theorem append_singleton_eq {last passage : Passage} {front back : List Passage}
    (h : passages ++ [last] = front ++ passage :: back) :
    (back = [] ∧ passage = last ∧ passages = front) ∨
      ∃ back', back = back' ++ [last] ∧ passages = front ++ passage :: back' := by
  rcases List.eq_nil_or_concat' back with rfl | ⟨back', other, rfl⟩
  · obtain ⟨hfront, hlast⟩ := List.append_inj' h rfl
    exact .inl ⟨rfl, (List.singleton_inj.1 hlast).symm, hfront⟩
  · rw [← List.cons_append, ← List.append_assoc] at h
    obtain ⟨hfront, hlast⟩ := List.append_inj' h rfl
    rw [List.singleton_inj.1 hlast]
    exact .inr ⟨back', rfl, hfront⟩

namespace CommentsEnd

theorem put (h : CommentsEnd passages out) (more : List Char) :
    CommentsEnd passages (more ++ out) := by
  intro front content sameline back hsplit
  obtain ⟨later, earlier, hout, hseen, hfresh⟩ := h front content sameline back hsplit
  exact ⟨more ++ later, earlier, by rw [hout, List.append_assoc], hseen, hfresh⟩

theorem trim (h : CommentsEnd passages out) : CommentsEnd passages (out.dropWhile isSpace) := by
  intro front content sameline back hsplit
  obtain ⟨later, earlier, hout, hseen, hfresh⟩ := h front content sameline back hsplit
  obtain ⟨later', hdrop⟩ :=
    exists_dropWhile_line later ((printedComment content).reverse ++ earlier)
  exact ⟨later', earlier, by rw [hout, hdrop], hseen, hfresh⟩

theorem plain (h : CommentsEnd passages out) (text : List Char) :
    CommentsEnd (passages ++ [.plain text]) out := by
  intro front content sameline back hsplit
  rcases append_singleton_eq hsplit with ⟨-, hpassage, -⟩ | ⟨back', -, hfront⟩
  · cases hpassage
  · exact h front content sameline back' hfront

/-- The comment that has just ended its line, after those that did so before. -/
theorem comment (h : CommentsEnd passages out) (content : String) (sameline : Bool)
    (hseen : visible out.reverse = visible (passages.flatMap Passage.text))
    (hfresh : sameline = false → FreshLine out) :
    CommentsEnd (passages ++ [.comment content sameline])
      ('\n' :: ((printedComment content).reverse ++ out)) := by
  intro front content' sameline' back hsplit
  rcases append_singleton_eq hsplit with ⟨-, hpassage, rfl⟩ | ⟨back', -, hfront⟩
  · cases hpassage
    exact ⟨[], out, rfl, hseen, hfresh⟩
  · exact (h.put ('\n' :: (printedComment content).reverse)) front content' sameline' back' hfront

end CommentsEnd

namespace Printout

variable {entries : List Entry} {ending : Ending}

/-- A line that is not known to have content has only blanks on it. -/
theorem freshLine (h : Printout entries ending out) (hending : ending ≠ .content) :
    FreshLine out := by
  induction h with
  | start =>
    intro c hc
    cases hc
  | text | literal => exact absurd rfl hending
  | pass broken _ ih => exact ih hending
  | space _ ih => exact ih hending
  | line next margin blank _ _ => exact FreshLine.line blank _
  | forget => exact absurd rfl hending
  | comment content sameline margin blank _ _ _ => exact FreshLine.line blank _

theorem commentsEnd (h : Printout entries ending out) :
    CommentsEnd (entries.map Entry.passage) out := by
  induction h with
  | start =>
    intro front content sameline back hsplit
    cases front <;> cases hsplit
  | text content _ ih | literal content _ _ _ _ ih =>
    rw [List.map_append]
    exact (ih.plain content).put content.reverse
  | pass broken _ ih =>
    rw [List.map_append]
    exact ih.plain _
  | space _ ih => exact ih.put [' ']
  | line next margin blank _ ih =>
    have hline := ih.trim.put (margin ++ ['\n'])
    rwa [List.append_assoc] at hline
  | forget _ ih => exact ih
  | comment content sameline margin blank own h ih =>
    have hseen := h.visible_out
    rw [← flatMap_passages] at hseen
    rw [dropWhile_comment, List.map_append]
    exact (ih.comment content sameline hseen fun hown => h.freshLine (own hown)).put margin

end Printout

/-! ## The comments of a tree -/

/-- What a comment says, and whether it shares its line. -/
def Node.comment? : Node → Option (String × Bool)
  | .comment content sameline => some (content, sameline)
  | _ => none

def Entry.comment? : Entry → Option (String × Bool)
  | .comment content sameline => some (content, sameline)
  | _ => none

theorem Entry.comment?_passage (entry : Entry) : entry.passage.comment? = entry.comment? := by
  cases entry <;> rfl

namespace Node

/-- A script base that is a single character is no comment and holds none. -/
theorem comments_of_singleChar? {base : Node} {c : Char} (h : base.singleChar? = some c) :
    base.entries.filterMap Entry.comment? = [] := by
  obtain ⟨content, -, rfl | rfl⟩ := singleChar?_cases h <;> rfl

mutual

/-- The comments that a tree says are those that a walk visits. -/
theorem comments_walkFrom : ∀ (node : Node) (path : Path) (siblings : Nat),
    (walkFrom path siblings node).filterMap (comment? ∘ Visit.node)
      = node.entries.filterMap Entry.comment?
  | list items, path, _ | inlineMath items, path, _ | displayMath items, path, _
  | group items, path, _ | arguments items, path, _ | mathEnvironment _ items, path, _ => by
    simp [walkFrom, entries, List.filterMap_cons, comment?, Entry.comment?,
      comments_walkList items path]
  | string _, _, _ | whitespace, _, _ | parbreak, _, _ | verbatim _, _, _
  | commentEnvironment _, _, _ | comment _ _, _, _ => rfl
  | verb _ _, _, _ => by
    rw [entries]
    split <;> rfl
  | command _ args, path, _ => by
    simp [walkFrom, entries, List.filterMap_cons, comment?, Entry.comment?,
      comments_walkArgs args path]
  | environment _ args body, path, _ => by
    simp [walkFrom, entries, List.filterMap_cons, comment?, Entry.comment?,
      comments_walkArgs args path, comments_walkList body path]
  | script mark base, path, _ => by
    simp [walkFrom, entries, List.filterMap_cons, comment?, comments_walkBase mark base path]

theorem comments_walkList : ∀ (items : List Node) (path : Path) (slot : Slot)
    (siblings index : Nat),
    (walkList path slot siblings index items).filterMap (comment? ∘ Visit.node)
      = (entriesAll items).filterMap Entry.comment?
  | [], _, _, _, _ => rfl
  | node :: rest, path, slot, siblings, index => by
    rw [walkList, entriesAll, List.filterMap_append, List.filterMap_append,
      comments_walkFrom node, comments_walkList rest]

theorem comments_walkArgs : ∀ (args : Option (List Node)) (path : Path),
    (walkArgs path args).filterMap (comment? ∘ Visit.node)
      = (entriesArgs args).filterMap Entry.comment?
  | none, _ => rfl
  | some items, path => by
    rw [walkArgs, entriesArgs, comments_walkList items]
    simp [List.filterMap_cons, Entry.comment?]

theorem comments_walkBase (mark : Mark) : ∀ (base : Option Node) (path : Path),
    (walkBase path base).filterMap (comment? ∘ Visit.node)
      = (entriesScript mark base).filterMap Entry.comment?
  | none, _ => rfl
  | some base, path => by
    rw [walkBase, entriesScript, comments_walkFrom base]
    cases hsingle : base.singleChar? with
    | some c => exact comments_of_singleChar? hsingle
    | none =>
      by_cases hg : base.isGroup = true
      · simp [hg, List.filterMap_cons, Entry.comment?]
      · simp [hg, List.filterMap_cons, Entry.comment?]

end

end Node

/-! ## Both printers -/

/-- Each comment stands in the output and a line feed follows at once. Before and
after it can be seen what the passages before and after it show. Unless it shares
its line, only blanks precede it on its line. -/
def EndsComments (passages : List Passage) (output : List Char) : Prop :=
  ∀ front content sameline back, passages = front ++ .comment content sameline :: back →
    ∃ before after, output = before ++ printedComment content ++ '\n' :: after ∧
      visible before = visible (front.flatMap Passage.text) ∧
      visible after = visible (back.flatMap Passage.text) ∧
      (sameline = false → EndsOnBlanks before)

theorem Printout.endsComments {entries : List Entry} {ending : Ending} {output : List Char}
    (h : Printout entries ending output.reverse) :
    EndsComments (entries.map Entry.passage) output := by
  intro front content sameline back hsplit
  obtain ⟨later, earlier, hout, hseen, hfresh⟩ :=
    h.commentsEnd front content sameline back hsplit
  have houtput : output = earlier.reverse ++ printedComment content ++ '\n' :: later.reverse := by
    have hreverse := congrArg List.reverse hout
    simpa using hreverse
  refine ⟨earlier.reverse, later.reverse, houtput, hseen, ?_,
    fun hown => (hfresh hown).endsOnBlanks⟩
  -- what is seen after the comment is what is left of all that is seen
  have hpercent : isSpace '%' = false := by decide
  have hall := h.visible_out
  rw [List.reverse_reverse, ← flatMap_passages, houtput, hsplit] at hall
  simpa [hseen, Passage.text, visible_printedComment, hpercent] using hall

/-- **Nothing is ever commented out.** Cut at its comments, the plain text of a tree
has the comments that a walk through the tree visits, in the same order. Whatever
the options, either printer puts each of them out with a line feed right behind it,
and on a line of its own unless it shares one; the rest of the tree is printed
before and after it, and never on the same line after it. -/
theorem comments_end_their_lines (node : Node) (textOptions : TextOptions)
    (layoutOptions : LayoutOptions) :
    node.passages.flatMap Passage.text = node.displayText.toList ∧
    node.passages.filterMap Passage.comment?
      = node.walk.filterMap (Node.comment? ∘ Visit.node) ∧
    EndsComments node.passages (printTokens textOptions node).toList ∧
    EndsComments node.passages (printDoc layoutOptions node).toList := by
  refine ⟨?_, ?_, ?_, ?_⟩
  · rw [Node.passages, flatMap_passages, Node.flatMap_entries, Node.displayText,
      String.toList_ofList]
  · rw [Node.passages, List.filterMap_map]
    exact (List.filterMap_congr fun entry _ => entry.comment?_passage).trans
      (Node.comments_walkFrom node [] 1).symm
  · obtain ⟨ending, h⟩ := printout_tokens textOptions node
    exact h.endsComments
  · obtain ⟨ending, h⟩ := printout_doc layoutOptions node
    exact h.endsComments

end LatexFormatter
