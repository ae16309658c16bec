import LatexFormatter.Node.OfParseTree
import LatexFormatter.Proofs.Grammar.Tokens

/-
  What a rule finds where math, a script, a comment or literal text stands. In math
  the blanks around groups and marks and before scripts go with them, so what is
  found there begins at the blanks and ends behind them; a comment goes with the
  blanks before it if it has a line of its own, and with the line ending behind it
  unless a blank line follows.
-/

namespace LatexFormatter

/-! ## Passing over blanks -/

theorem Cursor.skipBlanks_of_rest {here : Cursor} {blanks text : List Char}
    (hb : ∀ c ∈ blanks, isBlank c = true) (ht : ∀ c ∈ text.head?, isBlank c = false)
    (h : here.rest = blanks ++ text) : here.skipBlanks = here.skip blanks.length := by
  rw [Cursor.skipBlanks, h, blankLength_append hb ht]

/-- Where the first character after the blanks is known, so is the first of all. -/
theorem head_of_blanks {blanks : List Char} (more : List Char) {c d : Char} (hd : isBlank d = false)
    (hdc : d ≠ c) (hb : ∀ c ∈ blanks, isBlank c = true) :
    ∃ first rest, blanks ++ c :: more = first :: rest ∧ d ≠ first := by
  cases blanks with
  | nil => exact ⟨c, more, rfl, hdc⟩
  | cons b bs =>
    refine ⟨b, bs ++ c :: more, rfl, ?_⟩
    rintro rfl
    rw [hb d (by simp)] at hd
    cases hd

/-! ## Math -/

section Math

variable {ahead : Ahead} {here : Cursor} {before more : List Char} {c : Char}
  (hb : ∀ c ∈ before, isBlank c = true) (hc : isBlank c = false)
  (h : here.rest = before ++ c :: more)

include hb h

/-- Behind blanks, what is no backslash, dollar or comment is a token of math. -/
theorem finds_token_math {outcome : Option Found} (hdollar : c ≠ '$') (hbackslash : c ≠ '\\')
    (hcomment : comment? here = none) (ht : Finds (mathToken ahead here) outcome) :
    Finds (token ahead .math here) outcome := by
  obtain ⟨first, rest, hrest, hfirst⟩ :=
    head_of_blanks more (show isBlank '$' = false by decide) hdollar.symm hb
  obtain ⟨first', rest', hrest', hfirst'⟩ :=
    head_of_blanks more (show isBlank '\\' = false by decide) hbackslash.symm hb
  rw [hrest'] at hrest
  obtain ⟨rfl, rfl⟩ := List.cons.inj hrest
  rw [hrest'] at h
  refine (finds_opened_none ahead h hfirst.symm hfirst'.symm).orElse_none
    ((finds_command_none ahead h hfirst'.symm).orElse_none ?_)
  rw [hcomment]
  exact (finds_ofOption none).orElse_none ht

include hc

theorem comment_eq_none_of_blanks (hpercent : c ≠ '%') : comment? here = none := by
  apply comment_eq_none
  rw [h, List.dropWhile_append_of_pos hb, List.dropWhile_cons, if_neg (by simp [hc])]
  simpa using hpercent

theorem skipBlanks_eq : here.skipBlanks = here.skip before.length :=
  Cursor.skipBlanks_of_rest hb (by simpa using hc) h

end Math

theorem Cursor.rest_skip_append {here : Cursor} {front text : List Char}
    (h : here.rest = front ++ text) : (here.skip front.length).rest = text := by
  rw [Cursor.rest_skip, h, List.drop_left]

/-- A group in math takes the blanks around it along. -/
theorem finds_math_group {ahead : Ahead} {here next : Cursor} {item : ParseTree}
    {before more after text : List Char} (hb : ∀ c ∈ before, isBlank c = true)
    (h : here.rest = before ++ '{' :: more) (ha : ∀ c ∈ after, isBlank c = true)
    (ht : ∀ c ∈ text.head?, isBlank c = false) (hnext : next.rest = after ++ text)
    (hgroup : Finds (group ahead (here.skip before.length)) (some (next, item))) :
    Finds (token ahead .math here) (some (next.skip after.length, item)) := by
  apply finds_token_math hb h (by decide) (by decide)
    (comment_eq_none_of_blanks hb (by decide) h (by decide))
  unfold mathToken
  rw [skipBlanks_eq hb (by decide) h]
  have hfound := hgroup.map (fun found : Found => (found.1.skipBlanks, found.2))
  rw [show (next, item).1.skipBlanks = next.skip after.length from
    Cursor.skipBlanks_of_rest ha ht hnext] at hfound
  exact hfound.orElse

/-- A mark in math takes the blanks around it along. -/
theorem finds_math_mark {ahead : Ahead} {here : Cursor} {before after text : List Char} {c : Char}
    (hc : c = '&' ∨ c = '#') (hb : ∀ c ∈ before, isBlank c = true)
    (h : here.rest = before ++ c :: (after ++ text)) (ha : ∀ c ∈ after, isBlank c = true)
    (ht : ∀ c ∈ text.head?, isBlank c = false) :
    Finds (token ahead .math here)
      (some (here.skip (before.length + 1 + after.length), .chars [c])) := by
  have hblank : isBlank c = false := by rcases hc with rfl | rfl <;> decide
  have hinner := Cursor.rest_skip_append h
  have hafter : ((here.skip before.length).skip 1).rest = after ++ text := by
    rw [Cursor.rest_skip, hinner]
    rfl
  have hskip : ((here.skip before.length).skip 1).skipBlanks
      = here.skip (before.length + 1 + after.length) := by
    rw [Cursor.skipBlanks_of_rest ha ht hafter, Cursor.skip_skip, Cursor.skip_skip,
      Nat.add_assoc]
  apply finds_token_math hb h (by rcases hc with rfl | rfl <;> decide)
    (by rcases hc with rfl | rfl <;> decide)
    (comment_eq_none_of_blanks hb hblank h (by rcases hc with rfl | rfl <;> decide))
  unfold mathToken
  rw [skipBlanks_eq hb hblank h]
  refine (Finds.map_none _ (finds_group_none ahead hinner ?_)).orElse_none ?_
  · rcases hc with rfl | rfl <;> decide
  · rw [Cursor.peek_of_rest hinner]
    rcases hc with rfl | rfl
    · rw [hskip]
      exact finds_pure _
    · rw [hskip]
      exact finds_pure _

/-- A stretch of white space in math, if nothing takes it along. -/
theorem finds_math_blank {ahead : Ahead} {here : Cursor} {blanks text : List Char}
    (hne : blanks ≠ []) (hb : ∀ c ∈ blanks, isBlank c = true)
    (h : here.rest = blanks ++ text) (hl : whitespaceLength (blanks ++ text) = blanks.length)
    (ht : ∀ c ∈ (text.dropWhile isBlank).head?, takesBlanks c = false)
    (hcomment : comment? here = none) :
    Finds (token ahead .math here) (some (here.skip blanks.length, .bare .whitespace)) := by
  obtain ⟨b, bs, rfl⟩ := List.exists_cons_of_ne_nil hne
  have hother : ∀ d, isBlank d = false → b ≠ d := by
    rintro d hd rfl
    rw [hb b (by simp)] at hd
    cases hd
  -- where the blanks end
  have hpeek : ∀ c ∈ here.skipBlanks.peek, takesBlanks c = false := by
    intro c hc
    rw [Cursor.peek, Cursor.rest_skipBlanks, h, List.dropWhile_append_of_pos hb] at hc
    exact ht c hc
  have hnot : ∀ c, takesBlanks c = true → here.skipBlanks.peek ≠ some c := by
    intro c hc hp
    rw [hpeek c hp] at hc
    cases hc
  have hgroup : Finds (group ahead here.skipBlanks) none := by
    rw [group, if_pos (by simpa using hnot '{' rfl)]
    exact finds_failure
  refine (finds_opened_none ahead h (hother '$' (by decide)) (hother '\\' (by decide))).orElse_none
    ((finds_command_none ahead h (hother '\\' (by decide))).orElse_none ?_)
  rw [hcomment]
  refine (finds_ofOption none).orElse_none ?_
  dsimp only
  unfold mathToken
  refine (hgroup.map_none _).orElse_none ?_
  split
  · next hp => exact absurd hp (hnot '&' rfl)
  · next hp => exact absurd hp (hnot '#' rfl)
  · next hp => exact absurd hp (hnot '^' rfl)
  · next hp => exact absurd hp (hnot '_' rfl)
  · rw [Cursor.readBlanks?, h, hl, if_neg (by simp)]
    exact (finds_ofOption _).orElse

/-! ## Scripts -/

theorem scriptKind_char (mark : Mark) : ∃ kind, scriptKind? mark.char = some kind ∧
    ∀ base, Node.ofParseTree (.record kind none (some base) none false none)
      = .script mark <$> Node.ofBase (some base) := by
  cases mark with
  | sup =>
    refine ⟨.superscript, rfl, fun base => ?_⟩
    simp only [Node.ofParseTree]
    rfl
  | sub =>
    refine ⟨.subscript, rfl, fun base => ?_⟩
    simp only [Node.ofParseTree]
    rfl

/-- In math the blanks before a script go with it. -/
theorem finds_math_script {ahead : Ahead} {here : Cursor} {before more : List Char} {mark : Mark}
    {found : Found} (hb : ∀ c ∈ before, isBlank c = true)
    (h : here.rest = before ++ mark.char :: more)
    (hscript : Finds (script ahead (here.skip before.length)) (some found)) :
    Finds (token ahead .math here) (some found) := by
  have hblank : isBlank mark.char = false := by cases mark <;> decide
  have hinner := Cursor.rest_skip_append h
  apply finds_token_math hb h (by cases mark <;> decide) (by cases mark <;> decide)
    (comment_eq_none_of_blanks hb hblank h (by cases mark <;> decide))
  unfold mathToken
  rw [skipBlanks_eq hb hblank h]
  refine (Finds.map_none _ (finds_group_none ahead hinner (by cases mark <;> decide))).orElse_none
    ?_
  rw [Cursor.peek_of_rest hinner]
  cases mark
  · exact hscript
  · exact hscript

/-- A script in running text. -/
theorem finds_text_script {ahead : Ahead} {here : Cursor} {more : List Char} {mark : Mark}
    {found : Found} (h : here.rest = mark.char :: more)
    (hscript : Finds (script ahead here) (some found)) :
    Finds (token ahead .text here) (some found) := by
  have hblank : isBlank mark.char = false := by cases mark <;> decide
  have hparbreak : parbreakLength here.rest = 0 := by
    simp [parbreakLength, h, hblank, countLineEndings]
  apply finds_token_text h (by cases mark <;> decide) (by cases mark <;> decide)
    (comment_eq_none_of_blanks (List.forall_mem_nil _) hblank h (by cases mark <;> decide))
  unfold textToken
  refine (finds_group_none ahead h (by cases mark <;> decide)).orElse_none
    ((finds_delimitedMath_none ahead .dollar
      (Cursor.sees_eq_false h (by cases mark <;> decide))).orElse_none ?_)
  rw [Cursor.peek_of_rest h]
  dsimp only
  rw [if_neg (by cases mark <;> decide), hparbreak]
  exact (finds_ofOption none).orElse_none hscript.orElse

/-- The base of a script that is a single character or a group. -/
theorem finds_script_of_base {ahead : Ahead} {here : Cursor} {mark : Mark} {c : Char}
    {more : List Char} {kind : RecordKind} {found : Found} (h : here.rest = mark.char :: c :: more)
    (hkind : scriptKind? mark.char = some kind) (hblank : isBlank c = false)
    (hb : Finds (scriptBase ahead (here.skip 1)) (some found)) :
    Finds (script ahead here)
      (some (found.1, .record kind none (some found.2) none false none)) := by
  have hafter : (here.skip 1).skipBlanks = here.skip 1 := by
    have hrest : (here.skip 1).rest = [] ++ c :: more := by simp [h]
    rw [Cursor.skipBlanks_of_rest (by simp) (by simpa using hblank) hrest]
    exact Cursor.skip_zero _
  unfold script
  rw [Cursor.peek_of_rest h, Option.bind_some, hkind]
  dsimp only
  rw [hafter]
  exact ((hb.map some).orElse).bind (finds_pure _)

theorem finds_scriptBase_char {ahead : Ahead} {here : Cursor} {c : Char} {more : List Char}
    {found : Found} (h : here.rest = c :: more) (hc : isMathChar c = true)
    (hb : Finds (ahead.token .math here) (some found)) :
    Finds (scriptBase ahead here) (some found) := by
  obtain ⟨-, -, hends, -⟩ := isMathChar_iff.1 hc
  have hnot : ∀ d, endsMath d = true → c ≠ d := by
    rintro d hd rfl
    rw [hd] at hends
    cases hends
  rw [scriptBase, Cursor.peek_of_rest h]
  dsimp only
  rw [if_neg (by simp [hnot '}' rfl, hnot '$' rfl]), if_neg (by simpa using hnot '{' rfl)]
  exact hb

theorem finds_scriptBase_group {ahead : Ahead} {here : Cursor} {more : List Char} {found : Found}
    (h : here.rest = '{' :: more) (hb : Finds (group ahead here) (some found)) :
    Finds (scriptBase ahead here) (some found) := by
  rw [scriptBase, Cursor.peek_of_rest h]
  exact hb

/-! ## Marks in running text -/

theorem finds_text_mark {ahead : Ahead} {here : Cursor} {c : Char} {more : List Char}
    (hc : c = '&' ∨ c = '#') (h : here.rest = c :: more) :
    Finds (token ahead .text here) (some (here.skip 1, .chars [c])) := by
  have hblank : isBlank c = false := by rcases hc with rfl | rfl <;> decide
  apply finds_token_text h (by rcases hc with rfl | rfl <;> decide)
    (by rcases hc with rfl | rfl <;> decide)
    (comment_eq_none_of_blanks (List.forall_mem_nil _) hblank h
      (by rcases hc with rfl | rfl <;> decide))
  unfold textToken
  refine (finds_group_none ahead h (by rcases hc with rfl | rfl <;> decide)).orElse_none
    ((finds_delimitedMath_none ahead .dollar
      (Cursor.sees_eq_false h (by rcases hc with rfl | rfl <;> decide))).orElse_none ?_)
  rw [Cursor.peek_of_rest h]
  dsimp only
  rw [if_pos (by rcases hc with rfl | rfl <;> rfl), Cursor.readText, h]
  exact finds_pure _

/-! ## Comments -/

/-- A comment is found before anything of running text or math. -/
theorem finds_comment {ahead : Ahead} {here : Cursor} {c : Char} {more : List Char} {found : Found}
    (h : here.rest = c :: more) (hdollar : c ≠ '$') (hbackslash : c ≠ '\\')
    (hcomment : comment? here = some found) (mode : Mode) :
    Finds (token ahead mode here) (some found) := by
  refine (finds_opened_none ahead h hdollar hbackslash).orElse_none
    ((finds_command_none ahead h hbackslash).orElse_none ?_)
  rw [hcomment]
  exact (finds_ofOption _).orElse

section Comments

variable {here : Cursor} {before more : List Char}

/-- Behind spaces at the start of a line a comment has the line to itself. -/
theorem comment_of_fresh (hb : ∀ c ∈ before, isSpace c = true) (hfresh : here.fresh = true)
    (h : here.rest = before ++ '%' :: more) :
    comment? here = some (commentBody (here.skip before.length) false) := by
  have hspaces : spaceLength here.rest = before.length := by
    rw [h]
    exact runLength_all_append hb (by simp [isSpace])
  have hrest : (here.skip before.length).rest = '%' :: more := by
    rw [Cursor.rest_skip, h, List.drop_left]
  have hending : lineEndingLength (here.rest.drop before.length) = 0 := by
    rw [h, List.drop_left]
    rfl
  unfold comment?
  dsimp only
  rw [hspaces, hending]
  simp only [bne_self_eq_false, Bool.false_eq_true, if_false, hfresh, if_true,
    Option.filter_some, Cursor.peek_of_rest hrest, beq_self_eq_true]

/-- So has one behind a line ending and the margin of the next line. -/
theorem comment_of_line (hb : ∀ c ∈ before, isSpace c = true)
    (h : here.rest = '\n' :: before ++ '%' :: more) :
    comment? here = some (commentBody (here.skip (before.length + 1)) false) := by
  have hspaces : spaceLength here.rest = 0 := by
    rw [h]
    rfl
  have hending : lineEndingLength (here.rest.drop 0) = 1 := by
    rw [h]
    rfl
  have hmargin : spaceLength (here.rest.drop (0 + 1)) = before.length := by
    rw [h]
    exact runLength_all_append hb (by simp [isSpace])
  have hrest : (here.skip (0 + 1 + before.length)).rest = '%' :: more := by
    rw [Cursor.rest_skip, h, Nat.zero_add, Nat.add_comm, List.cons_append, List.drop_succ_cons,
      List.drop_left]
  unfold comment?
  dsimp only
  rw [hspaces, hending, hmargin, if_pos (by rfl), Option.filter_some,
    if_pos (by simp [Cursor.peek_of_rest hrest])]
  simp [Nat.add_comm]

/-- A comment that other content of its line precedes. -/
theorem comment_of_sameline (hfresh : here.fresh = false) (h : here.rest = '%' :: more) :
    comment? here = some (commentBody here true) := by
  have hspaces : spaceLength here.rest = 0 := by
    rw [h]
    rfl
  have hending : lineEndingLength (here.rest.drop 0) = 0 := by
    rw [h]
    rfl
  unfold comment?
  dsimp only
  rw [hspaces, hending, hfresh]
  simp [Cursor.peek_of_rest h]

/-- Spaces before a comment are no part of it if other content precedes them. -/
theorem comment_eq_none_of_spaces (hne : before ≠ []) (hb : ∀ c ∈ before, isSpace c = true)
    (hfresh : here.fresh = false) (h : here.rest = before ++ '%' :: more) :
    comment? here = none := by
  have hspaces : spaceLength here.rest = before.length := by
    rw [h]
    exact runLength_all_append hb (by simp [isSpace])
  have hending : lineEndingLength (here.rest.drop before.length) = 0 := by
    rw [h, List.drop_left]
    rfl
  obtain ⟨b, bs, rfl⟩ := List.exists_cons_of_ne_nil hne
  have hpercent : b ≠ '%' := by
    rintro rfl
    have := hb '%' (by simp)
    cases this
  unfold comment?
  dsimp only
  rw [hspaces, hending, hfresh]
  simp [Cursor.peek_of_rest h, hpercent]

/-- Where a blank line comes first there is no comment yet. -/
theorem comment_eq_none_of_lines {blanks text : List Char} (hb : ∀ c ∈ blanks, isBlank c = true)
    (hline : '\n' ∈ blanks) (h : here.rest = '\n' :: blanks ++ text) : comment? here = none := by
  have hspaces : spaceLength here.rest = 0 := by
    rw [h]
    rfl
  have hending : lineEndingLength (here.rest.drop 0) = 1 := by
    rw [h]
    rfl
  -- the next line ends before anything stands on it
  obtain ⟨spaces, rest, hsplit, hs, hr⟩ := exists_run isSpace blanks
  obtain ⟨c, rest, rfl⟩ : ∃ c more, rest = c :: more := by
    cases rest with
    | nil =>
      rw [hsplit, List.append_nil] at hline
      have := hs '\n' hline
      cases this
    | cons c more => exact ⟨c, more, rfl⟩
  have hpercent : c ≠ '%' := by
    rintro rfl
    have := hb '%' (by simp [hsplit])
    cases this
  have hmargin : spaceLength (here.rest.drop (0 + 1)) = spaces.length := by
    rw [h, hsplit, Nat.zero_add, List.cons_append, List.drop_succ_cons, List.drop_zero,
      List.append_assoc]
    exact runLength_all_append hs (by simpa using hr)
  have hrest : (here.skip (0 + 1 + spaces.length)).rest = c :: (rest ++ text) := by
    rw [Cursor.rest_skip, h, hsplit, Nat.zero_add, Nat.add_comm, List.cons_append,
      List.drop_succ_cons, List.append_assoc, List.drop_left]
    rfl
  have hpeek : here.peek = some '\n' := Cursor.peek_of_rest h
  unfold comment?
  dsimp only
  rw [hspaces, hending, hmargin, if_pos (by rfl), Option.filter_some,
    if_neg (by simpa [Cursor.peek_of_rest hrest] using hpercent), hpeek]
  rfl

variable {content text : List Char}

/-- A comment takes its line ending along. -/
theorem commentBody_of_line (hc : ∀ c ∈ content, isLineBreak c = false)
    (h : here.rest = '%' :: content ++ '\n' :: text)
    (hp : parbreakLength ('\n' :: text) = 0) (sameline : Bool) :
    commentBody here sameline = (here.skip (content.length + 2),
      .record .comment none (some (.chars content)) none sameline none) := by
  have hcontent : (here.rest.drop 1).takeWhile (!isLineBreak ·) = content := by
    rw [h, List.cons_append, List.drop_succ_cons, List.drop_zero,
      List.takeWhile_append_of_pos (by simpa using hc)]
    simp [isLineBreak]
  have hstop : (here.skip (content.length + 1)).rest = '\n' :: text := by
    rw [Cursor.rest_skip, h, List.cons_append, List.drop_succ_cons, List.drop_left]
  unfold commentBody
  rw [hcontent]
  dsimp only
  rw [hstop, hp, if_pos (by rfl), Cursor.skip_skip]
  rfl

/-- A comment before a blank line leaves all of it. -/
theorem commentBody_of_lines (hc : ∀ c ∈ content, isLineBreak c = false)
    (h : here.rest = '%' :: content ++ '\n' :: text)
    (hp : parbreakLength ('\n' :: text) ≠ 0) (sameline : Bool) :
    commentBody here sameline = (here.skip (content.length + 1),
      .record .comment none (some (.chars content)) none sameline none) := by
  have hcontent : (here.rest.drop 1).takeWhile (!isLineBreak ·) = content := by
    rw [h, List.cons_append, List.drop_succ_cons, List.drop_zero,
      List.takeWhile_append_of_pos (by simpa using hc)]
    simp [isLineBreak]
  have hstop : (here.skip (content.length + 1)).rest = '\n' :: text := by
    rw [Cursor.rest_skip, h, List.cons_append, List.drop_succ_cons, List.drop_left]
  unfold commentBody
  rw [hcontent]
  dsimp only
  rw [hstop, if_neg (by simpa using hp)]

end Comments

/-! ## Literal text in a line -/

/-- Literal text ends at the second copy of its delimiter. -/
theorem finds_verb {ahead : Ahead} {here : Cursor} {delimiter : Char} {content text : List Char}
    (hl : isLetter delimiter = false) (hw : Text.isWhiteSpace delimiter = false)
    (hc : delimiter ∉ content)
    (h : here.rest
      = '\\' :: 'v' :: 'e' :: 'r' :: 'b' :: delimiter :: (content ++ delimiter :: text))
    (mode : Mode) :
    Finds (token ahead mode here) (some (here.skip (content.length + 7),
      .record .verb none (some (.chars content)) none false (some delimiter))) := by
  have hdistance : distanceTo? [delimiter] (content ++ delimiter :: text)
      = some content.length := by
    have hnot : ¬ [delimiter] <:+: content := fun hin => hc (hin.subset (by simp))
    simpa using distanceTo_append text rfl (by simp) hnot
  have hverb : verb? here = some (here.skip (content.length + 7),
      .record .verb none (some (.chars content)) none false (some delimiter)) := by
    have hdrop : here.rest.drop 5 = delimiter :: (content ++ delimiter :: text) := by rw [h]; rfl
    unfold verb?
    rw [if_neg (by simp [Cursor.sees, h, List.isPrefixOf]), hdrop]
    dsimp only
    rw [if_neg (by simp [hl, hw]), hdistance, Option.map_some, List.take_left]
    have hlength : 5 + 1 + content.length + 1 = content.length + 7 := by omega
    rw [hlength]
  apply Finds.orElse
  rw [opened, Cursor.peek_of_rest h, hverb]
  exact (finds_ofOption _).orElse

/-! ## Displayed math and math environments -/

/-- Displayed math is what its sequence holds. -/
theorem finds_brackets {ahead : Ahead} {here stop : Cursor} {items : List ParseTree}
    {more rest : List Char} (hf : ahead.retrieve = Retrieval.fresh)
    (h : here.rest = '\\' :: '[' :: more)
    (hs : Gives (ahead.sequence .math (some ['\\', ']']) (here.skip 2)) (stop, items))
    (hstop : stop.rest = '\\' :: ']' :: rest) (mode : Mode) :
    Finds (token ahead mode here) (some (stop.skip 2, .enclosing .displayMath items)) := by
  have hb : Finds (delimitedMath ahead .brackets here)
      (some (stop.skip 2, .enclosing .displayMath items)) := by
    rw [delimitedMath,
      if_neg (by simp [Cursor.sees, MathDelimiter.opening, h, List.isPrefixOf]), hf]
    exact hs.lift.bind
      ((finds_literal (show stop.rest = ['\\', ']'] ++ rest from hstop)).bind (finds_pure _))
  have hp : Finds (delimitedMath ahead .parentheses here) none :=
    finds_delimitedMath_none ahead .parentheses
      (by simp [Cursor.sees, MathDelimiter.opening, h, List.isPrefixOf])
  exact (finds_opened_of_char hf h (by decide) hb hp).orElse

/-- The name of an environment that is read as math. -/
structure IsMathName (name : List Char) : Prop where
  no_brace : ∀ c ∈ name, c ≠ '{' ∧ c ≠ '}'
  math : isMathEnvironment (String.ofList name) = true

theorem IsMathName.ne {name : List Char} (h : IsMathName name) (other : String)
    (hother : isMathEnvironment other = false) : name ≠ other.toList := by
  rintro rfl
  have hmath := h.math
  rw [String.ofList_toList, hother] at hmath
  cases hmath

/-- A math environment is what its sequence holds, up to its own closing tag. -/
theorem finds_mathEnvironment {ahead : Ahead} {here stop : Cursor} {name text : List Char}
    {items : List ParseTree} {rest : List Char} (hf : ahead.retrieve = Retrieval.fresh)
    (hn : IsMathName name) (h : here.rest = beginTag name ++ text)
    (hs : Gives (ahead.sequence .math (some (endTag name)) (here.skip (beginTag name).length))
      (stop, items))
    (hstop : stop.rest = endTag name ++ rest) (mode : Mode) :
    Finds (token ahead mode here) (some (stop.skip (endTag name).length,
      .record .mathEnvironment (some (String.ofList name)) (some (.list items)) none false
        none)) := by
  have hbackslash : here.rest = '\\' :: here.rest.tail := by rw [h]; rfl
  have hbegin : seesBegin here = true := by
    simp [seesBegin, Cursor.sees, h, beginTag, List.isPrefixOf]
  have hnone := finds_none_of_begin ahead h
  have hname := finds_environmentName hn.no_brace h
  apply Finds.orElse
  rw [opened, Cursor.peek_of_rest hbackslash, hnone.1]
  refine (finds_ofOption none).orElse_none
    ((finds_literalEnvironment_none_of_begin hn.no_brace h (by decide)
      (hn.ne _ (by decide))).orElse_none
    ((finds_literalEnvironment_none_of_begin hn.no_brace h (by decide)
      (hn.ne _ (by decide))).orElse_none
    ((hnone.2 .brackets).orElse_none ((hnone.2 .parentheses).orElse_none (Finds.orElse ?_)))))
  rw [mathEnvironment, hbegin, hf]
  apply hname.bind
  simp only [hn.math, Bool.not_true, Bool.false_eq_true, if_false]
  exact hs.lift.bind ((finds_literal hstop).bind (finds_pure _))

end LatexFormatter
