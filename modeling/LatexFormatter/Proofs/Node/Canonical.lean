import LatexFormatter.Proofs.Grammar.Spelling
import LatexFormatter.Proofs.Node.Orderly
import Mathlib.Data.List.Chain

/-
  Canonical trees: trees of words, space, plain commands, groups, single
  characters of math and environments, without excess space, in which no two
  neighbours could be read as anything else. What `Canonical` says of whole
  lists is broken down to what holds at each place of a list: what kind of gap
  comes before a node (`Fitting`), and that a word or a command ends where its
  text ends (`Legible`). `Orderly` puts the two together for every list of the
  tree.
-/

namespace LatexFormatter.Node

/-! ## Canonical trees -/

/-- Commands that are more than their name, or that start a line or a
paragraph. -/
def reservedCommands : List String :=
  ["begin", "end", "verb", "item", "usepackage", "newcommand"]

/-- Every maximal run of adjacent strings is the list of tokens that its text is
read as. -/
def StringsRead (items : List Node) : Prop :=
  ∀ before run after, items = before ++ run ++ after → run ≠ [] →
    (∀ node ∈ run, node.isString = true) → (∀ node ∈ before.getLast?, node.isString = false) →
    (∀ node ∈ after.head?, node.isString = false) →
    parse (list run).displayText = .ok (list run)

def isCommand : Node → Bool
  | command _ _ => true
  | _ => false

/-- Whether a node is a string whose first character is a letter. -/
def startsWithLetter : Node → Bool
  | string content => content.toList.head?.any isLetter
  | _ => false

/-- No command is directly followed by a string that starts with a letter. -/
def CommandsEnd (items : List Node) : Prop :=
  items.IsChain fun node next => node.isCommand = true → next.startsWithLetter = false

mutual

/-- A node that the lists of a canonical tree may hold. -/
def Admissible : Node → Prop
  | string content => ∀ c ∈ content.toList, isWordChar c = true
  | whitespace => True
  | parbreak => True
  | command name args =>
    args = none ∧ name ≠ "" ∧ (∀ c ∈ name.toList, isLetter c = true) ∧ name ∉ reservedCommands
  | group content => AdmissibleAll content ∧ StringsRead content ∧ CommandsEnd content
  | inlineMath content =>
    content ≠ [] ∧ ∀ node ∈ content, ∃ c, node = string (String.ofList [c]) ∧ isMathChar c = true
  | verbatim content => ¬ (closingTag verbatimName) <:+: content.toList
  | environment name args body =>
    args = none ∧ (∀ c ∈ name.toList, c ≠ '{' ∧ c ≠ '}') ∧ isMathEnvironment name = false ∧
      name ≠ verbatimName ∧ name ≠ commentName ∧
      AdmissibleAll body ∧ StringsRead body ∧ CommandsEnd body
  | list _ | mathEnvironment _ _ | displayMath _ | script _ _ | verb _ _ | commentEnvironment _
  | comment _ _ | arguments _ => False

def AdmissibleAll : List Node → Prop
  | [] => True
  | node :: rest => Admissible node ∧ AdmissibleAll rest

end

/-- A list of admissible nodes that normalization leaves as it is and that does
not start with a space node. -/
structure Canonical (node : Node) : Prop where
  root : ∃ items, node = list items ∧ AdmissibleAll items ∧ StringsRead items ∧ CommandsEnd items ∧
    ∀ first ∈ items.head?, first.isSpace = false
  normal : node.normalize = node

/-! ## Runs of strings, one after the other -/

theorem stringsRead_nil : StringsRead [] := by
  intro before run after heq hne
  simp_all

/-- A node that is no string belongs to no run. -/
theorem StringsRead.cons {node : Node} {rest : List Node} (hnode : node.isString = false)
    (h : StringsRead rest) : StringsRead (node :: rest) := by
  intro before run after heq hne hrun hbefore hafter
  cases before with
  | nil =>
    obtain ⟨first, more, rfl⟩ := List.exists_cons_of_ne_nil hne
    obtain ⟨rfl, -⟩ := List.cons.inj heq
    rw [hrun node (by simp)] at hnode
    cases hnode
  | cons other before =>
    obtain ⟨rfl, htail⟩ := List.cons.inj heq
    refine h before run after htail hne hrun ?_ hafter
    intro last hlast
    exact hbefore last (by rw [List.getLast?_cons, Option.mem_def.1 hlast]; rfl)

/-- Strings before something else are a run of their own. -/
theorem StringsRead.append (strings : List Node) {rest : List Node}
    (hs : ∀ node ∈ strings, node.isString = true)
    (hrest : ∀ node ∈ rest.head?, node.isString = false)
    (hparse : parse (list strings).displayText = .ok (list strings)) (h : StringsRead rest) :
    StringsRead (strings ++ rest) := by
  intro before run after heq hne hrun hbefore hafter
  have htake : ∀ xs ys : List Node, (∀ node ∈ xs, node.isString = true) →
      (∀ node ∈ ys.head?, node.isString = false) → (xs ++ ys).takeWhile isString = xs := by
    intro xs ys hxs hys
    rw [List.takeWhile_append_of_pos hxs]
    cases ys with
    | nil => simp
    | cons y ys => simp [hys y (by simp)]
  have hlast : ∀ node ∈ before.getLast?, node ∉ strings := by
    intro node hnode hmem
    have hnot := hbefore node hnode
    rw [hs node hmem] at hnot
    cases hnot
  by_cases hnil : before = []
  · rw [hnil, List.nil_append] at heq
    have hsame := congrArg (List.takeWhile isString) heq
    rw [htake _ _ hs hrest, htake _ _ hrun hafter] at hsame
    rwa [← hsame]
  · have hmem := List.getLast?_eq_some_getLast hnil
    rw [List.append_assoc] at heq
    rcases List.append_eq_append_iff.1 heq with ⟨more, rfl, hmore⟩ | ⟨more, rfl, -⟩
    · -- the run lies behind the strings
      refine h more run after (by simp [hmore]) hne hrun ?_ hafter
      intro node hnode
      exact hbefore node (by rw [List.getLast?_append, Option.mem_def.1 hnode]; rfl)
    · exact absurd (by simp) (hlast _ hmem)

/-- The runs behind a node that is no string are runs of the whole list. -/
theorem StringsRead.behind {front rest : List Node} {node : Node} (hnode : node.isString = false)
    (h : StringsRead (front ++ node :: rest)) : StringsRead rest := by
  intro before run after heq hne hrun hbefore hafter
  refine h (front ++ node :: before) run after (by simp [heq]) hne hrun ?_ hafter
  intro last hlast
  rw [List.getLast?_append, List.getLast?_cons] at hlast
  cases hb : before.getLast? with
  | none =>
    obtain rfl : last = node := by simpa [hb, eq_comm] using hlast
    exact hnode
  | some other =>
    obtain rfl : last = other := by simpa [hb, eq_comm] using hlast
    exact hbefore last (by simp [hb])

/-! ## Where words and commands end -/

/-- Text of word characters spells some strings. -/
theorem exists_spelled_words (fresh : Bool) (text : List Char)
    (h : ∀ c ∈ text, isWordChar c = true) :
    ∃ run, Spelled .text fresh run text ∧ ∀ node ∈ run, node.isString = true := by
  induction hn : text.length using Nat.strong_induction_on generalizing fresh text with
  | _ n ih =>
    cases text with
    | nil => exact ⟨[], .nil, by simp⟩
    | cons c cs =>
      have hchars : ∀ d ∈ c :: cs, isPlain d = true ∨ isPunctuation d = true := by
        intro d hd
        have hword := h d hd
        simp only [isWordChar, Bool.and_eq_true, Bool.or_eq_true] at hword
        exact hword.1
      have hpos : 0 < wordLength (c :: cs) := wordLength_pos (hchars c (by simp))
      generalize hk : wordLength (c :: cs) = k at hpos
      have hle : k ≤ (c :: cs).length := hk ▸ wordLength_le _
      obtain ⟨run, hrun, hstrings⟩ := ih ((c :: cs).drop k).length
        (by rw [List.length_drop]; omega) false ((c :: cs).drop k)
        (fun d hd => h d (List.mem_of_mem_drop hd)) rfl
      refine ⟨string (String.ofList ((c :: cs).take k)) :: run, ?_, ?_⟩
      · have hlist : (String.ofList ((c :: cs).take k)).toList = (c :: cs).take k := by simp
        have hspelled : Spelled .text fresh (string (String.ofList ((c :: cs).take k)) :: run)
            ((String.ofList ((c :: cs).take k)).toList ++ (c :: cs).drop k) := by
          refine .string _ ?_ ?_ ?_ hrun
          · rw [hlist]
            intro hnil
            have := congrArg List.length hnil
            rw [List.length_take, Nat.min_eq_left hle, List.length_nil] at this
            omega
          · rw [hlist]
            exact fun d hd => hchars d (List.mem_of_mem_take hd)
          · rw [hlist, List.take_append_drop, hk, List.length_take, Nat.min_eq_left hle]
        rwa [hlist, List.take_append_drop] at hspelled
      · intro node hnode
        rcases List.mem_cons.1 hnode with rfl | hnode
        · rfl
        · exact hstrings node hnode

/-- What a spelling that begins with a string says about that string, if no character
of the text is special. -/
theorem Spelled.of_string {fresh : Bool} {content : String} {run : List Node} {text : List Char}
    (h : Spelled .text fresh (string content :: run) text)
    (hwords : ∀ c ∈ text, isWordChar c = true) :
    ∃ rest, text = content.toList ++ rest ∧ content.toList ≠ [] ∧
      wordLength (content.toList ++ rest) = content.toList.length ∧
      Spelled .text false run rest := by
  generalize hraw : string content :: run = raw at h
  cases h with
  | @space _ _ blanks _ _ _ _ _ h =>
    unfold spaceOf spaceNode at hraw
    split at hraw <;> cases hraw
  | string content' hne hc hl h =>
    cases hraw
    exact ⟨_, rfl, hne, hl, h⟩
  | mark c hc ha h =>
    exfalso
    have hword := hwords c (by simp)
    rcases hc with rfl | rfl <;> revert hword <;> decide
  | _ => cases hraw

/-- Strings that are spelled by a text end where they are cut. -/
theorem legible_of_spelled {fresh : Bool} {run after : List Node} {text : List Char}
    (h : Spelled .text fresh run text) (hwords : ∀ c ∈ text, isWordChar c = true)
    (hrun : ∀ node ∈ run, node.isString = true)
    (hafter : ∀ node ∈ after.head?, node.isString = false) (hlegible : Legible .text after) :
    Legible .text (run ++ after) ∧ leadingText (run ++ after) = text := by
  induction run generalizing fresh text with
  | nil =>
    cases h with
    | nil => exact ⟨hlegible, leadingText_of_head hafter⟩
  | cons node run ih =>
    obtain ⟨content, rfl⟩ := exists_string (hrun node (by simp))
    obtain ⟨rest, rfl, hne, hl, hrest⟩ := Spelled.of_string h hwords
    obtain ⟨htail, hlead⟩ := ih hrest (fun c hc => hwords c (by simp [hc]))
      fun node hnode => hrun node (by simp [hnode])
    rw [← hlead] at hl
    exact ⟨⟨fun _ => ⟨hne, Or.inr hl⟩, by simp, htail⟩, by simp [leadingText, hlead]⟩

theorem admissibleAll_iff {items : List Node} :
    AdmissibleAll items ↔ ∀ node ∈ items, Admissible node := by
  induction items with
  | nil => simp [AdmissibleAll]
  | cons node rest ih => simp [AdmissibleAll, ih]

theorem isWordChar_of_mem_displayAll {run : List Node} (hrun : ∀ node ∈ run, node.isString = true)
    (ha : ∀ node ∈ run, Admissible node) : ∀ c ∈ displayAll run, isWordChar c = true := by
  induction run with
  | nil => simp [displayAll]
  | cons node run ih =>
    obtain ⟨content, rfl⟩ := exists_string (hrun node (by simp))
    intro c hc
    rw [displayAll, display] at hc
    rcases List.mem_append.1 hc with hc | hc
    · exact ha (string content) (by simp) c hc
    · exact ih (fun node hnode => hrun node (by simp [hnode]))
        (fun node hnode => ha node (by simp [hnode])) c hc

/-- Strings that are what their text is read as are spelled by it. -/
theorem spelled_of_parse {run : List Node} (hrun : ∀ node ∈ run, node.isString = true)
    (ha : ∀ node ∈ run, Admissible node) (h : parse (list run).displayText = .ok (list run)) :
    Spelled .text true run (displayAll run) := by
  obtain ⟨other, hother, -⟩ :=
    exists_spelled_words true (displayAll run) (isWordChar_of_mem_displayAll hrun ha)
  have hparse := parse_spelled hother
  rw [displayText, display, hparse] at h
  cases h
  exact hother

/-- No admissible string opens arguments. -/
theorem opensArguments_of_admissible {items : List Node} (ha : ∀ node ∈ items, Admissible node) :
    opensArguments items = false := by
  induction items with
  | nil => rfl
  | cons node rest ih =>
    cases node with
    | whitespace => exact ih fun other hother => ha other (by simp [hother])
    | string content =>
      have hwords : ∀ c ∈ content.toList, isWordChar c = true := ha (string content) (by simp)
      cases hcontent : content.toList with
      | nil => simp [opensArguments, hcontent]
      | cons c cs =>
        have hword := hwords c (by simp [hcontent])
        simp only [isWordChar, Bool.and_eq_true, bne_iff_ne] at hword
        simpa [opensArguments, hcontent] using hword.2
    | _ => rfl

/-- A command that no string with a letter follows ends where its name does. -/
theorem legible_command {name : String} {args : Option (List Node)} {rest : List Node}
    (ha : ∀ node ∈ rest, Admissible node) (hc : CommandsEnd (command name args :: rest))
    (h : Legible .text rest) : Legible .text (command name args :: rest) := by
  refine ⟨⟨opensArguments_of_admissible ha, fun _ => ?_⟩, by simp, h⟩
  cases rest with
  | nil => simp [leadingText]
  | cons next rest =>
    cases hnext : next.isString with
    | false =>
      have hnone : leadingText (next :: rest) = [] := leadingText_of_head (by simpa using hnext)
      simp [hnone]
    | true =>
      -- a string is not empty, so its first letter is the first of the text
      obtain ⟨content, rfl⟩ := exists_string hnext
      obtain ⟨c, cs, hcs⟩ := List.exists_cons_of_ne_nil (h.1 rfl).1
      have hfirst := (List.isChain_cons_cons.1 hc).1 rfl
      simpa [leadingText, startsWithLetter, hcs] using hfirst

theorem legible_cons_of_other {node : Node} {rest : List Node} (hs : node.isString = false)
    (hc : ∀ name args, node ≠ command name args) (h : Legible .text rest) :
    Legible .text (node :: rest) := by
  refine ⟨?_, by simp, h⟩
  cases node <;> first | trivial | exact absurd rfl (hc _ _)

/-- What `StringsRead` and `CommandsEnd` say of a list holds at each of its
places. -/
theorem legible_of_stringsRead {items : List Node} (ha : ∀ node ∈ items, Admissible node)
    (hs : StringsRead items) (hc : CommandsEnd items) : Legible .text items := by
  -- one run of strings and the node behind it are taken at a time
  induction hn : items.length using Nat.strong_induction_on generalizing items with
  | _ n ih =>
    obtain ⟨run, after, rfl, hrun, hafter⟩ := exists_run isString items
    have hlegible : Legible .text after := by
      cases after with
      | nil => trivial
      | cons node rest =>
        have hnode := hafter node (by simp)
        have hends := List.IsChain.right_of_append hc
        have hadmissible : ∀ other ∈ rest, Admissible other := fun other hother =>
          ha other (by simp [hother])
        have hrest : Legible .text rest := by
          refine ih rest.length ?_ hadmissible (hs.behind hnode) (List.IsChain.tail hends) rfl
          simp only [List.length_append, List.length_cons] at hn
          omega
        cases node with
        | command name args => exact legible_command hadmissible hends hrest
        | _ => exact legible_cons_of_other hnode (by simp) hrest
    by_cases hne : run = []
    · simpa [hne] using hlegible
    · have hadmissible : ∀ node ∈ run, Admissible node := fun node hnode =>
        ha node (by simp [hnode])
      have hparse := hs [] run after (by simp) hne hrun (by simp) hafter
      exact (legible_of_spelled (spelled_of_parse hrun hadmissible hparse)
        (isWordChar_of_mem_displayAll hrun hadmissible) hrun hafter hlegible).1

theorem Legible.ne_nil {items : List Node} (h : Legible .text items) {content : String}
    (hmem : string content ∈ items) : content.toList ≠ [] := by
  induction items with
  | nil => simp at hmem
  | cons node rest ih =>
    rcases List.mem_cons.1 hmem with rfl | hrest
    · exact (h.1 rfl).1
    · exact ih h.2.2 hrest

/-! ## Canonical trees are orderly -/

theorem isCommandName_of_admissible {name : String} {args : Option (List Node)}
    (h : Admissible (command name args)) : IsCommandName name.toList := by
  obtain ⟨-, hne, hletters, hreserved⟩ := h
  have hlist : ∀ other ∈ "" :: reservedCommands, name.toList ≠ other.toList := by
    intro other hmem heq
    obtain rfl := String.toList_inj.1 heq
    exact (List.mem_cons.1 hmem).elim hne hreserved
  exact ⟨hlist "" (by decide), hletters, hlist "begin" (by decide), hlist "end" (by decide),
    hlist "verb" (by decide)⟩

/-- Characters that stand for themselves in math are a legible row of tokens. -/
theorem orderly_mathChars {content : List Node}
    (h : ∀ node ∈ content, ∃ c, node = string (String.ofList [c]) ∧ isMathChar c = true) :
    Legible .math content ∧ OrderlyAll .math content := by
  induction content with
  | nil => exact ⟨trivial, trivial⟩
  | cons node rest ih =>
    obtain ⟨c, rfl, hc⟩ := h node (by simp)
    have hmore := fun other hother => h other (List.mem_cons_of_mem _ hother)
    obtain ⟨hlegible, horderly⟩ := ih hmore
    refine ⟨⟨by simp [Ends], fun _ next hnext => ?_, hlegible⟩, ?_, horderly⟩
    · obtain ⟨d, rfl, -⟩ := hmore next (List.mem_of_mem_head? hnext)
      simp [isApart, isSpace]
    · exact ⟨c, by simp, Or.inr (Or.inr hc)⟩

mutual

theorem orderly_of_admissible : ∀ node : Node, Admissible node →
    (∀ content, node = string content → content.toList ≠ []) → Orderly .text node
  | string content, ha, hne => by
    refine Or.inr (Or.inr ⟨hne content rfl, fun c hc => ?_⟩)
    have hword := ha c hc
    simp only [isWordChar, Bool.and_eq_true, Bool.or_eq_true] at hword
    exact hword.1
  | whitespace, _, _ => trivial
  | parbreak, _, _ => rfl
  | command name args, ha, _ => ⟨ha.1, Or.inl (isCommandName_of_admissible ha)⟩
  | group content, ha, _ => by
    have hlegible := legible_of_stringsRead (admissibleAll_iff.1 ha.1) ha.2.1 ha.2.2
    exact ⟨hlegible, orderlyAll_of_admissible content ha.1 fun _ => hlegible.ne_nil⟩
  | inlineMath content, ha, _ => ⟨rfl, ha.1, orderly_mathChars ha.2⟩
  | verbatim content, ha, _ => ha
  | environment name args body, ha, _ => by
    obtain ⟨hargs, hbrace, hmath, hverbatim, hcomment, hbody, hstrings, hcommands⟩ := ha
    have hlegible := legible_of_stringsRead (admissibleAll_iff.1 hbody) hstrings hcommands
    have hname : IsEnvironmentName name.toList :=
      ⟨hbrace, by simpa using hmath, fun heq => hverbatim (String.toList_inj.1 heq),
        fun heq => hcomment (String.toList_inj.1 heq)⟩
    exact ⟨hargs, hname, opensArguments_of_admissible (admissibleAll_iff.1 hbody), hlegible,
      orderlyAll_of_admissible body hbody fun _ => hlegible.ne_nil⟩
  | list _, ha, _ | mathEnvironment _ _, ha, _ | displayMath _, ha, _ | script _ _, ha, _
  | verb _ _, ha, _ | commentEnvironment _, ha, _ | comment _ _, ha, _
  | arguments _, ha, _ => ha.elim

theorem orderlyAll_of_admissible : ∀ items : List Node, AdmissibleAll items →
    (∀ content, string content ∈ items → content.toList ≠ []) → OrderlyAll .text items
  | [], _, _ => trivial
  | node :: rest, ha, hne =>
    ⟨orderly_of_admissible node ha.1 fun content heq => hne content (by simp [heq]),
      orderlyAll_of_admissible rest ha.2 fun content hmem => hne content (by simp [hmem])⟩

end

/-- A canonical tree is an orderly list. -/
theorem Canonical.orderly {node : Node} (h : Canonical node) :
    ∃ items, node = list items ∧ AdmissibleAll items ∧ Normal (list items) ∧
      Legible .text items ∧ OrderlyAll .text items ∧
      ∀ first ∈ items.head?, first.isSpace = false := by
  obtain ⟨⟨items, rfl, ha, hstrings, hcommands, hfirst⟩, hn⟩ := h
  have hlegible := legible_of_stringsRead (admissibleAll_iff.1 ha) hstrings hcommands
  exact ⟨items, rfl, ha, hn ▸ (normalize_reaches_normal_form (list items)).1, hlegible,
    orderlyAll_of_admissible items ha fun _ => hlegible.ne_nil, hfirst⟩

end LatexFormatter.Node
