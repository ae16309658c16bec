import LatexFormatter.Proofs.Grammar.Lengths

/-
  What a rule finds at a place whose text is known. Where constructs are run
  anew at every attempt, the outcome of a rule does not depend on what has been
  remembered, so each rule can be followed on its own: what fails before the
  right alternative is tried, and what that alternative then reads. The readers
  of nested material are taken as given; all that is asked of them is what they
  find further ahead.
-/

namespace LatexFormatter

/-! ## Outcomes that no memory changes -/

/-- The reading has this result, whatever is remembered. -/
def Gives {α : Type} (reading : StateM Memory α) (result : α) : Prop :=
  ∀ memory, (reading.run memory).1 = result

/-- The rule has this outcome, whatever is remembered. -/
def Finds {α : Type} (rule : Reading α) (outcome : Option α) : Prop := Gives rule.run outcome

section Outcomes

variable {α β : Type}

theorem gives_pure (a : α) : Gives (pure a) a := fun _ => rfl

theorem Gives.bind {reading : StateM Memory α} {rest : α → StateM Memory β} {a : α} {b : β}
    (h : Gives reading a) (hrest : Gives (rest a) b) : Gives (reading >>= rest) b := by
  intro memory
  have hfirst := h memory
  rw [StateT.run_bind]
  show ((rest (reading.run memory).1).run (reading.run memory).2).1 = b
  rw [hfirst]
  exact hrest _

theorem finds_pure (a : α) : Finds (pure a) (some a) := fun _ => rfl

theorem finds_failure : Finds (failure : Reading α) none := fun _ => rfl

theorem finds_fail (offset : Nat) (what : String) :
    Finds (Reading.fail offset what : Reading α) none :=
  fun _ => rfl

theorem finds_ofOption (value : Option α) : Finds (Reading.ofOption value) value := fun _ => rfl

theorem Finds.bind {rule : Reading α} {rest : α → Reading β} {a : α} {outcome : Option β}
    (h : Finds rule (some a)) (hrest : Finds (rest a) outcome) :
    Finds (rule >>= rest) outcome := by
  unfold Finds
  simp only [OptionT.run_bind, Option.elimM]
  exact Gives.bind h hrest

theorem Finds.bind_none {rule : Reading α} (rest : α → Reading β) (h : Finds rule none) :
    Finds (rule >>= rest) none := by
  unfold Finds
  simp only [OptionT.run_bind, Option.elimM]
  exact Gives.bind h (gives_pure none)

theorem Finds.map {rule : Reading α} (f : α → β) {a : α} (h : Finds rule (some a)) :
    Finds (f <$> rule) (some (f a)) :=
  h.bind (finds_pure (f a))

theorem Finds.map_none {rule : Reading α} (f : α → β) (h : Finds rule none) :
    Finds (f <$> rule) none :=
  h.bind_none _

theorem Finds.orElse {rule other : Reading α} {a : α} (h : Finds rule (some a)) :
    Finds (rule <|> other) (some a) := by
  unfold Finds
  rw [OptionT.run_orElse]
  exact Gives.bind h (gives_pure (some a))

theorem Finds.orElse_none {rule other : Reading α} {outcome : Option α} (h : Finds rule none)
    (hother : Finds other outcome) : Finds (rule <|> other) outcome := by
  unfold Finds
  rw [OptionT.run_orElse]
  exact Gives.bind h hother

theorem Gives.lift {reading : StateM Memory α} {a : α} (h : Gives reading a) :
    Finds (liftM reading : Reading α) (some a) := by
  show Gives (reading >>= fun a => pure (some a)) (some a)
  exact h.bind (gives_pure (some a))

end Outcomes

theorem finds_literal_of_sees {here : Cursor} {cs : List Char} (h : here.sees cs = true) :
    Finds (Reading.literal cs here) (some (here.skip cs.length)) := by
  rw [Reading.literal, if_pos h]
  exact finds_pure _

theorem finds_literal {here : Cursor} {cs more : List Char} (h : here.rest = cs ++ more) :
    Finds (Reading.literal cs here) (some (here.skip cs.length)) := by
  apply finds_literal_of_sees
  rw [Cursor.sees, h, List.isPrefixOf_iff_prefix]
  exact List.prefix_append cs more

theorem finds_literal_none {here : Cursor} {cs : List Char} (h : here.sees cs = false) :
    Finds (Reading.literal cs here) none := by
  rw [Reading.literal, if_neg (by simp [h])]
  exact finds_fail _ _

/-! ## What a character rules out -/

section Characters

variable {here : Cursor} {c : Char} {more : List Char}

theorem Cursor.peek_of_rest (h : here.rest = c :: more) : here.peek = some c := by
  simp [peek, h]

theorem Cursor.sees_eq_false (h : here.rest = c :: more) {d : Char} {ds : List Char} (hd : d ≠ c) :
    here.sees (d :: ds) = false := by
  simp [sees, h, List.isPrefixOf, hd]

variable (ahead : Ahead)

theorem finds_delimitedMath_none (delimiter : MathDelimiter)
    (hc : here.sees delimiter.opening = false) :
    Finds (delimitedMath ahead delimiter here) none := by
  rw [delimitedMath, hc]
  exact finds_failure

variable (h : here.rest = c :: more)

include h

theorem finds_opened_none (hc : c ≠ '$') (hc' : c ≠ '\\') : Finds (opened ahead here) none := by
  rw [opened, Cursor.peek_of_rest h]
  split
  · next heq => exact absurd (Option.some.inj heq) hc
  · next heq => exact absurd (Option.some.inj heq) hc'
  · exact finds_failure

theorem finds_command_none (hc : c ≠ '\\') : Finds (command ahead here) none := by
  rw [command, Cursor.peek_of_rest h, if_pos (by simpa using hc)]
  exact finds_failure

theorem finds_group_none (hc : c ≠ '{') : Finds (group ahead here) none := by
  rw [group, Cursor.peek_of_rest h, if_pos (by simpa using hc)]
  exact finds_failure

theorem finds_script_none (hc : c ≠ '^') (hc' : c ≠ '_') : Finds (script ahead here) none := by
  have hkind : here.peek.bind scriptKind? = none := by
    rw [Cursor.peek_of_rest h, Option.bind_some, scriptKind?]
    · exact hc
    · exact hc'
  rw [script, hkind]
  exact finds_failure

end Characters

theorem isBlank_of_mem_lineEnding {cs : List Char} {c : Char}
    (h : c ∈ cs.take (lineEndingLength cs)) : isBlank c = true := by
  unfold lineEndingLength at h
  split at h
  · rcases List.mem_cons.1 h with rfl | h
    · decide
    · obtain rfl : c = '\n' := by simpa using h
      decide
  · obtain rfl : c = '\r' := by simpa using h
    decide
  · obtain rfl : c = '\n' := by simpa using h
    decide
  · simp at h

theorem isBlank_of_mem_spaces {cs : List Char} {c : Char} (h : c ∈ cs.take (spaceLength cs)) :
    isBlank c = true := by
  rw [spaceLength, take_runLength] at h
  simp [isBlank, List.mem_takeWhile_imp h]

/-- A line ending with the spaces around it is made of blanks. -/
theorem isBlank_of_mem_around {cs : List Char} {c : Char}
    (h : c ∈ cs.take (spaceLength cs + lineEndingLength (cs.drop (spaceLength cs))
      + spaceLength (cs.drop (spaceLength cs + lineEndingLength (cs.drop (spaceLength cs)))))) :
    isBlank c = true := by
  simp only [List.take_add, List.mem_append] at h
  rcases h with (h | h) | h
  · exact isBlank_of_mem_spaces h
  · exact isBlank_of_mem_lineEnding h
  · exact isBlank_of_mem_spaces h

theorem isBlank_of_mem_whitespace {cs : List Char} {c : Char}
    (h : c ∈ cs.take (whitespaceLength cs)) : isBlank c = true := by
  unfold whitespaceLength at h
  dsimp only at h
  split at h
  · exact isBlank_of_mem_spaces h
  · exact isBlank_of_mem_around h

/-- All blanks at a place are passed over, and nothing else. -/
theorem Cursor.rest_skipBlanks (here : Cursor) :
    here.skipBlanks.rest = here.rest.dropWhile isBlank := by
  obtain ⟨blanks, text, hsplit, hblanks, htext⟩ := exists_run isBlank here.rest
  rw [skipBlanks, rest_skip, hsplit, blankLength_append hblanks htext, List.drop_left,
    List.dropWhile_append_of_pos hblanks, dropWhile_of_head htext]

/-- Passing over blanks does not lead to a character that is not the first one
after them. -/
theorem Cursor.peek_skip_ne {here : Cursor} {n : Nat} {d : Char} (hd : isBlank d = false)
    (hn : ∀ c ∈ here.rest.take n, isBlank c = true)
    (h : ∀ c ∈ (here.rest.dropWhile isBlank).head?, c ≠ d) : (here.skip n).peek ≠ some d := by
  intro hp
  obtain ⟨more, hmore⟩ := Cursor.rest_ne_nil_of_peek hp
  refine h d ?_ rfl
  rw [Cursor.rest_skip] at hmore
  rw [← List.take_append_drop n here.rest, List.dropWhile_append_of_pos hn, hmore]
  simp [hd]

/-- There is no comment where something else comes first after the blanks. -/
theorem comment_eq_none {here : Cursor}
    (h : ∀ c ∈ (here.rest.dropWhile isBlank).head?, c ≠ '%') : comment? here = none := by
  -- wherever a comment could start, only blanks have been passed over
  have hnot : ∀ n, (∀ c ∈ here.rest.take n, isBlank c = true) →
      ((here.skip n).peek == some '%') = false := by
    intro n hn
    simpa using Cursor.peek_skip_ne (by decide) hn h
  unfold comment?
  dsimp only
  rw [Option.filter_eq_none_iff.2 ?_]
  · dsimp only
    have hzero := hnot 0 (by simp)
    rw [Cursor.skip_zero] at hzero
    simp [hzero]
  · intro there hthere
    rw [Bool.not_eq_true]
    split at hthere
    · obtain rfl := Option.some.inj hthere
      exact hnot _ fun _ => isBlank_of_mem_around
    · split at hthere
      · obtain rfl := Option.some.inj hthere
        exact hnot _ fun _ => isBlank_of_mem_spaces
      · cases hthere

/-! ## Tokens of running text -/

section Text

variable {ahead : Ahead} {here : Cursor} {c : Char} {more : List Char}

theorem finds_token_text {outcome : Option Found} (h : here.rest = c :: more) (hd : c ≠ '$')
    (hb : c ≠ '\\') (hcomment : comment? here = none)
    (ht : Finds (textToken ahead .text here) outcome) :
    Finds (token ahead .text here) outcome := by
  have hnone : Finds (Reading.ofOption (comment? here)) none := by
    rw [hcomment]
    exact finds_ofOption none
  exact (finds_opened_none ahead h hd hb).orElse_none
    ((finds_command_none ahead h hb).orElse_none (hnone.orElse_none ht))

/-- A stretch of blanks is one token: a paragraph break if it holds two line
endings, white space otherwise. -/
theorem finds_blanks {blanks text : List Char} (hne : blanks ≠ [])
    (hb : ∀ c ∈ blanks, isBlank c = true) (ht : ∀ c ∈ text.head?, isBlank c = false)
    (hcomment : comment? here = none) (h : here.rest = blanks ++ text) :
    Finds (token ahead .text here) (some (here.skip blanks.length,
      .bare (if 2 ≤ countLineEndings blanks then .parbreak else .whitespace))) := by
  obtain ⟨b, bs, rfl⟩ := List.exists_cons_of_ne_nil hne
  have hblank := isBlank_iff.1 (hb b (by simp))
  have hother : ∀ d, isBlank d = false → b ≠ d := by
    rintro d hd rfl
    rw [hb b (by simp)] at hd
    cases hd
  have hpos : (b :: bs).length ≠ 0 := by simp
  have hlength := parbreakLength_append hb ht
  apply finds_token_text h (hother '$' (by decide)) (hother '\\' (by decide)) hcomment
  · unfold textToken
    refine (finds_group_none ahead h (hother '{' (by decide))).orElse_none
      ((finds_delimitedMath_none ahead .dollar
        (Cursor.sees_eq_false h (hother '$' (by decide)).symm)).orElse_none ?_)
    rw [Cursor.peek_of_rest h]
    dsimp only
    rw [if_neg (by simp [hother '&' (by decide), hother '#' (by decide)]), h]
    rw [hlength]
    by_cases hcount : 2 ≤ countLineEndings (b :: bs)
    · rw [if_pos hcount, if_pos hcount]
      apply Finds.orElse
      rw [Cursor.readBlanks?, if_neg (by simp)]
      exact finds_ofOption _
    · rw [if_neg hcount, if_neg hcount]
      have hnumber : numberLength (b :: bs ++ text) = 0 := by
        rcases hblank with (rfl | rfl) | rfl | rfl <;> simp [numberLength, runLength, isDigit]
      refine (finds_ofOption none).orElse_none
        ((finds_script_none ahead h (hother '^' (by decide))
          (hother '_' (by decide))).orElse_none ?_)
      rw [hnumber, whitespaceLength_append hb ht (by omega)]
      refine finds_failure.orElse_none (Finds.orElse ?_)
      rw [Cursor.readBlanks?, if_neg (by simp)]
      exact finds_ofOption _

/-- A word is one token, as far as it reaches. -/
theorem finds_word (hc : isPlain c = true ∨ isPunctuation c = true) (h : here.rest = c :: more) :
    Finds (token ahead .text here) (some (here.readText (wordLength here.rest))) := by
  have hspecial : ∀ d, isSpecial d = true → isPunctuation d = false → c ≠ d := by
    rintro d hd hp rfl
    rcases hc with hc | hc
    · rw [(of_isSpecial hd).1] at hc
      cases hc
    · rw [hp] at hc
      cases hc
  have hblank : isBlank c = false := by
    rcases hc with hc | hc
    · exact isBlank_of_isPlain hc
    · exact isBlank_of_isPunctuation hc
  apply finds_token_text h (hspecial '$' (by decide) (by decide))
    (hspecial '\\' (by decide) (by decide))
  · apply comment_eq_none
    rw [h, List.dropWhile_cons, if_neg (by simp [hblank])]
    simpa using hspecial '%' (by decide) (by decide)
  · unfold textToken
    refine (finds_group_none ahead h (hspecial '{' (by decide) (by decide))).orElse_none
      ((finds_delimitedMath_none ahead .dollar (Cursor.sees_eq_false h
        (hspecial '$' (by decide) (by decide)).symm)).orElse_none ?_)
    have hparbreak : parbreakLength here.rest = 0 := by
      simp [parbreakLength, h, hblank, countLineEndings]
    have hwhitespace : whitespaceLength here.rest = 0 := by
      rw [h]
      exact whitespaceLength_cons hblank
    rw [Cursor.peek_of_rest h]
    dsimp only
    rw [if_neg (by simp [hspecial '&' (by decide) (by decide),
        hspecial '#' (by decide) (by decide)]),
      hparbreak, hwhitespace]
    refine (finds_ofOption none).orElse_none ((finds_script_none ahead h
      (hspecial '^' (by decide) (by decide)) (hspecial '_' (by decide) (by decide))).orElse_none ?_)
    unfold wordLength
    by_cases hnumber : numberLength here.rest = 0
    · rw [if_pos hnumber, if_pos (by simp [hnumber])]
      refine finds_failure.orElse_none ((finds_ofOption none).orElse_none ?_)
      rw [word, Cursor.peek_of_rest h]
      simp only [h]
      rw [if_neg (by simp)]
      by_cases hpunctuation : isPunctuation c = true
      · rw [if_pos hpunctuation, if_pos hpunctuation]
        exact finds_pure _
      · rw [if_neg hpunctuation, if_neg hpunctuation, if_pos (hc.resolve_right hpunctuation)]
        exact finds_pure _
    · rw [if_neg hnumber, if_neg (by simp [hnumber])]
      exact (finds_pure _).orElse

/-- A group is what its sequence holds, up to the closing brace. -/
theorem finds_group {stop : Cursor} {items : List ParseTree} {rest : List Char}
    (hf : ahead.retrieve = Retrieval.fresh) (h : here.rest = '{' :: more)
    (hs : Gives (ahead.sequence .text (some ['}']) (here.skip 1)) (stop, items))
    (hstop : stop.rest = '}' :: rest) :
    Finds (group ahead here) (some (stop.skip 1, .enclosing .group items)) := by
  rw [group, if_neg (by simp [Cursor.peek_of_rest h]), hf]
  exact hs.lift.bind
    ((finds_literal (show stop.rest = ['}'] ++ rest from hstop)).bind (finds_pure _))

/-- In running text a group is a token. -/
theorem finds_token_group {found : Found} (h : here.rest = '{' :: more)
    (hgroup : Finds (group ahead here) (some found)) :
    Finds (token ahead .text here) (some found) := by
  apply finds_token_text h (by decide) (by decide)
  · apply comment_eq_none
    rw [h]
    simp [isBlank, isSpace, isLineBreak]
  · exact hgroup.orElse

/-- Where no math opens with two dollars, it may open with one. -/
theorem finds_token_dollar {found : Found} (h : here.rest = '$' :: more)
    (hnone : Finds (delimitedMath ahead .dollars here) none)
    (hsome : Finds (delimitedMath ahead .dollar here) (some found)) :
    Finds (token ahead .text here) (some found) := by
  have hopened : Finds (opened ahead here) none := by
    rw [opened, Cursor.peek_of_rest h]
    exact hnone
  have hcomment : comment? here = none := comment_eq_none (by
    rw [h]
    simp [isBlank, isSpace, isLineBreak])
  unfold token
  rw [hcomment]
  refine hopened.orElse_none ((finds_command_none ahead h (by decide)).orElse_none
    ((finds_ofOption none).orElse_none ?_))
  dsimp only
  unfold textToken
  exact (finds_group_none ahead h (by decide)).orElse_none hsome.orElse

/-- Math between single dollars is what its sequence holds. -/
theorem finds_dollar {stop : Cursor} {items : List ParseTree} {rest : List Char}
    (hf : ahead.retrieve = Retrieval.fresh) (h : here.rest = '$' :: c :: more) (hc : c ≠ '$')
    (hs : Gives (ahead.sequence .math (some ['$']) (here.skip 1)) (stop, items))
    (hstop : stop.rest = '$' :: rest) :
    Finds (token ahead .text here) (some (stop.skip 1, .enclosing .inlineMath items)) := by
  have hdollars : here.sees ['$', '$'] = false := by
    simp [Cursor.sees, h, List.isPrefixOf, hc.symm]
  apply finds_token_dollar h (finds_delimitedMath_none ahead .dollars hdollars)
  rw [delimitedMath, if_neg (by simp [Cursor.sees, MathDelimiter.opening, h]), hf]
  exact hs.lift.bind
    ((finds_literal (show stop.rest = ['$'] ++ rest from hstop)).bind (finds_pure _))

end Text

/-! ## Tokens of math -/

/-- A character that stands for itself in math. -/
def isMathChar (c : Char) : Bool :=
  !([' ', '\t', '\r', '\n', '\x00', '$', '{', '}', '\\', '%', '&', '#', '^', '_'].contains c)

/-- The characters that take the blanks before them along in math. -/
def takesBlanks (c : Char) : Bool := c == '{' || c == '&' || c == '#' || c == '^' || c == '_'

theorem isMathChar_iff {c : Char} :
    isMathChar c = true ↔ isBlank c = false ∧ c ≠ '\x00' ∧ endsMath c = false ∧
      c ≠ '&' ∧ c ≠ '#' ∧ c ≠ '^' ∧ c ≠ '_' := by
  simp [isMathChar, isBlank, isSpace, isLineBreak, endsMath]
  tauto

theorem takesBlanks_of_isMathChar {c : Char} (h : isMathChar c = true) : takesBlanks c = false := by
  obtain ⟨-, -, hends, hand, hhash, hsup, hsub⟩ := isMathChar_iff.1 h
  have hbrace : c ≠ '{' := by
    rintro rfl
    cases hends
  simp [takesBlanks, hbrace, hand, hhash, hsup, hsub]

theorem takesBlanks_of_isBlank {c : Char} (h : isBlank c = true) : takesBlanks c = false := by
  rcases isBlank_iff.1 h with (rfl | rfl) | rfl | rfl <;> rfl

theorem finds_mathChar {ahead : Ahead} {here : Cursor} {c : Char} {more : List Char}
    (hc : isMathChar c = true) (h : here.rest = c :: more) :
    Finds (token ahead .math here) (some (here.skip 1, .chars [c])) := by
  obtain ⟨hblank, -, hends, hand, hhash, hsup, hsub⟩ := isMathChar_iff.1 hc
  obtain ⟨⟨⟨⟨hdollar, hopen⟩, -⟩, hbackslash⟩, hpercent⟩ : (((c ≠ '$' ∧ c ≠ '{') ∧ c ≠ '}') ∧
      c ≠ '\\') ∧ c ≠ '%' := by
    simpa [endsMath] using hends
  have hcomment : comment? here = none := comment_eq_none (by
    rw [h, List.dropWhile_cons, if_neg (by simp [hblank])]
    simpa using hpercent)
  have hinner : here.skipBlanks = here := by
    have hzero : blankLength here.rest = 0 := by simp [blankLength, runLength, h, hblank]
    rw [Cursor.skipBlanks, hzero, Cursor.skip_zero]
  have hwhitespace : whitespaceLength here.rest = 0 := by
    rw [h]
    exact whitespaceLength_cons hblank
  unfold token
  rw [hcomment]
  refine (finds_opened_none ahead h hdollar hbackslash).orElse_none
    ((finds_command_none ahead h hbackslash).orElse_none ((finds_ofOption none).orElse_none ?_))
  dsimp only
  unfold mathToken
  rw [hinner]
  apply ((finds_group_none ahead h hopen).map_none _).orElse_none
  rw [Cursor.peek_of_rest h]
  split
  · next heq => exact absurd (Option.some.inj heq) hand
  · next heq => exact absurd (Option.some.inj heq) hhash
  · next heq => exact absurd (Option.some.inj heq) hsup
  · next heq => exact absurd (Option.some.inj heq) hsub
  · rw [hwhitespace]
    apply (finds_ofOption none).orElse_none
    rw [mathChar, Cursor.peek_of_rest h]
    dsimp only
    rw [if_neg (by simp [hends]), Cursor.readText, h]
    exact finds_pure _

/-! ## Commands -/

/-- A command that takes part in no other construct: a name of letters, apart from
those that open and close environments and literal text. -/
structure IsCommandName (name : List Char) : Prop where
  ne_nil : name ≠ []
  letters : ∀ c ∈ name, isLetter c = true
  ne_begin : name ≠ ['b', 'e', 'g', 'i', 'n']
  ne_end : name ≠ ['e', 'n', 'd']
  ne_verb : name ≠ ['v', 'e', 'r', 'b']

/-- Letters at the head of a name and of what follows it belong to the name. -/
theorem prefix_of_letters {letters name text : List Char} (hl : ∀ c ∈ letters, isLetter c = true)
    (ht : ∀ c ∈ text.head?, isLetter c = false) (h : letters <+: name ++ text) :
    letters <+: name := by
  rcases Nat.le_total letters.length name.length with hle | hle
  · exact List.prefix_of_prefix_length_le h (List.prefix_append name text) hle
  · obtain ⟨tail, rfl⟩ := List.prefix_of_prefix_length_le (List.prefix_append name text) h hle
    rw [List.prefix_append_right_inj] at h
    cases tail with
    | nil => simp
    | cons t tail =>
      obtain ⟨more, rfl⟩ := h
      have hletter := hl t (by simp)
      rw [ht t (by simp)] at hletter
      cases hletter

/-- A name is not taken for other letters that something else has to follow. -/
theorem name_not_letters {letters name text more : List Char} {d : Char}
    (hl : ∀ c ∈ letters, isLetter c = true) (hd : isLetter d = false)
    (hn : ∀ c ∈ name, isLetter c = true) (hne : name ≠ letters)
    (ht : ∀ c ∈ text.head?, isLetter c = false) :
    (letters ++ d :: more).isPrefixOf (name ++ text) = false := by
  cases hp : (letters ++ d :: more).isPrefixOf (name ++ text) with
  | false => rfl
  | true =>
    rw [List.isPrefixOf_iff_prefix] at hp
    have hletters : letters <+: name ++ text := (List.prefix_append _ _).trans hp
    obtain ⟨tail, rfl⟩ := prefix_of_letters hl ht hletters
    rw [List.append_assoc, List.prefix_append_right_inj] at hp
    cases tail with
    | nil => simp at hne
    | cons t tail =>
      rw [List.cons_append, List.cons_prefix_cons] at hp
      have hletter := hn t (by simp)
      rw [← hp.1, hd] at hletter
      cases hletter

theorem Cursor.sees_append (here : Cursor) (xs ys : List Char) :
    here.sees (xs ++ ys) = (here.sees xs && (here.skip xs.length).sees ys) := by
  rw [Bool.eq_iff_iff]
  simp only [Bool.and_eq_true, sees, List.isPrefixOf_iff_prefix, rest_skip]
  constructor
  · rintro ⟨more, hmore⟩
    refine ⟨⟨ys ++ more, by rw [← hmore, List.append_assoc]⟩, more, ?_⟩
    rw [← hmore, List.append_assoc, List.drop_left]
  · rintro ⟨⟨more, hmore⟩, tail, htail⟩
    rw [← hmore, List.drop_left] at htail
    exact ⟨tail, by rw [← hmore, ← htail, List.append_assoc]⟩

/-- Arguments come next, after a stretch of white space at most. -/
def OpensArguments (text : List Char) : Prop :=
  (text.drop (whitespaceLength text)).head? = some '['

/-- No bracket follows, so there are no arguments. -/
theorem finds_optionalArguments_none {ahead : Ahead} {here : Cursor}
    (h : ¬ OpensArguments here.rest) :
    Finds (optionalArguments ahead here) (some (here, none)) := by
  have hnone : Finds (argumentList ahead here) none := by
    rw [argumentList, if_pos (by simpa [OpensArguments, Cursor.peek] using h)]
    exact finds_failure
  exact (hnone.map_none _).orElse_none (finds_pure _)

theorem finds_literalEnvironment_none {here : Cursor} {name : String} {kind : RecordKind}
    (h : here.sees (beginTag name.toList) = false) :
    Finds (literalEnvironment name kind here) none := by
  unfold literalEnvironment
  simp only [h, Bool.not_false, if_true]
  exact finds_failure

theorem finds_mathEnvironment_none {ahead : Ahead} {here : Cursor}
    (hf : ahead.retrieve = Retrieval.fresh)
    (h : seesBegin here = true → Finds (environmentName here) none) :
    Finds (mathEnvironment ahead here) none := by
  rw [mathEnvironment, hf]
  cases hbegin : seesBegin here with
  | true => exact (h hbegin).bind_none _
  | false => exact finds_failure

theorem finds_environment_none {ahead : Ahead} {here : Cursor}
    (hf : ahead.retrieve = Retrieval.fresh)
    (h : seesBegin here = true → Finds (environmentName here) none) :
    Finds (environment ahead here) none := by
  rw [environment, hf]
  cases hbegin : seesBegin here with
  | true => exact (h hbegin).bind_none _
  | false => exact finds_failure

section Commands

variable {ahead : Ahead} {here : Cursor} {name text : List Char} (hname : IsCommandName name)
  (h : here.rest = '\\' :: name ++ text) (ht : ∀ c ∈ text.head?, isLetter c = false)

include hname h ht

/-- A command is not literal text in a line. -/
theorem verb_eq_none_of_name : verb? here = none := by
  have hrest : here.rest = '\\' :: (name ++ text) := by simpa using h
  unfold verb?
  split
  · rfl
  · next hsees =>
    simp only [Cursor.sees, hrest, List.isPrefixOf, Bool.not_eq_true', Bool.not_eq_false] at hsees
    have hletters : ['v', 'e', 'r', 'b'] <+: name ++ text := by
      simpa [List.isPrefixOf_iff_prefix] using hsees
    obtain ⟨tail, rfl⟩ := prefix_of_letters (List.all_eq_true.1 rfl) ht hletters
    cases tail with
    | nil => exact absurd rfl hname.ne_verb
    | cons t tail =>
      -- the delimiter would be the next letter of the name
      have hletter := hname.letters t (by simp)
      simp [hrest, hletter]

/-- A command opens no environment, whatever its name in braces. -/
theorem sees_begin_of_name (more : List Char) :
    here.sees (['\\', 'b', 'e', 'g', 'i', 'n'] ++ '{' :: more) = false := by
  have hrest : here.rest = '\\' :: (name ++ text) := by simpa using h
  have hnot : (['b', 'e', 'g', 'i', 'n'] ++ '{' :: more).isPrefixOf (name ++ text) = false :=
    name_not_letters (List.all_eq_true.1 rfl) rfl hname.letters hname.ne_begin ht
  simpa [Cursor.sees, hrest, List.isPrefixOf] using hnot

/-- A command is no environment, literal text or math. -/
theorem finds_opened_none_of_name (hf : ahead.retrieve = Retrieval.fresh) :
    Finds (opened ahead here) none := by
  have hrest : here.rest = '\\' :: (name ++ text) := by simpa using h
  have htag := sees_begin_of_name hname h ht
  have hliteral : ∀ literal kind, Finds (literalEnvironment literal kind here) none := by
    intro literal kind
    apply finds_literalEnvironment_none
    simpa [beginTag] using htag (literal.toList ++ ['}'])
  -- a name may still begin like the command that opens an environment
  have henvironment : seesBegin here = true → Finds (environmentName here) none := by
    intro hbegin
    have hbrace := htag []
    rw [Cursor.sees_append, Bool.and_eq_false_iff] at hbrace
    refine Finds.bind_none _ (finds_literal_none (hbrace.resolve_left ?_))
    rw [show here.sees _ = true from hbegin]
    decide
  have hmath : ∀ d, isLetter d = false → here.sees ['\\', d] = false := by
    intro d hd
    obtain ⟨c, rest, rfl⟩ := List.exists_cons_of_ne_nil hname.ne_nil
    have hne : d ≠ c := by
      rintro rfl
      rw [hname.letters d (by simp)] at hd
      cases hd
    simp [Cursor.sees, hrest, List.isPrefixOf, hne]
  rw [opened, Cursor.peek_of_rest hrest, verb_eq_none_of_name hname h ht]
  exact (finds_ofOption none).orElse_none ((hliteral _ _).orElse_none
    ((hliteral _ _).orElse_none
    ((finds_delimitedMath_none ahead .brackets (hmath '[' (by decide))).orElse_none
    ((finds_delimitedMath_none ahead .parentheses (hmath '(' (by decide))).orElse_none
    ((finds_mathEnvironment_none hf henvironment).orElse_none
      (finds_environment_none hf henvironment))))))

/-- A command without arguments is its name. -/
theorem finds_command (hf : ahead.retrieve = Retrieval.fresh)
    (hargs : ¬ OpensArguments text) (mode : Mode) :
    Finds (token ahead mode here) (some (here.skip (name.length + 1),
      .record .command (some (String.ofList name)) none none false none)) := by
  have hrest : here.rest = '\\' :: (name ++ text) := by simpa using h
  have hstart : (here.skip 1).rest = name ++ text := by simp [hrest]
  have hlength : commandNameLength (here.skip 1).rest = name.length := by
    rw [hstart]
    obtain ⟨c, rest, rfl⟩ := List.exists_cons_of_ne_nil hname.ne_nil
    rw [List.cons_append, commandNameLength, if_pos (hname.letters c (by simp)),
      ← List.cons_append]
    exact runLength_all_append hname.letters ht
  have htake : (here.skip 1).rest.take name.length = name := by rw [hstart]; simp
  refine (finds_opened_none_of_name hname h ht hf).orElse_none (Finds.orElse ?_)
  unfold command
  rw [if_neg (by simp [Cursor.peek_of_rest hrest])]
  dsimp only
  rw [hlength, htake]
  have hpos : (name.length == 0) = false := by simpa using hname.ne_nil
  have hbegin : (String.ofList name == "begin" || String.ofList name == "end") = false := by
    simp only [Bool.or_eq_false_iff, beq_eq_false_iff_ne]
    constructor
    · intro heq
      exact hname.ne_begin (by simpa using congrArg String.toList heq)
    · intro heq
      exact hname.ne_end (by simpa using congrArg String.toList heq)
  simp only [hpos, hbegin, Bool.false_eq_true, if_false]
  rw [Cursor.skip_skip, Nat.add_comm]
  have hnext : (here.skip (name.length + 1)).rest = text := by simp [hrest]
  exact (finds_optionalArguments_none (by rw [hnext]; exact hargs)).bind (finds_pure _)

end Commands

section Characters

variable {ahead : Ahead} {here : Cursor} {d : Char} {more : List Char}
  (hf : ahead.retrieve = Retrieval.fresh) (h : here.rest = '\\' :: d :: more)
  (hd : isLetter d = false)

include hf h hd

/-- Behind a backslash that no letter follows only math opens. -/
theorem finds_opened_of_char {brackets parentheses : Option Found}
    (hb : Finds (delimitedMath ahead .brackets here) brackets)
    (hp : Finds (delimitedMath ahead .parentheses here) parentheses) :
    Finds (opened ahead here) (brackets.or parentheses) := by
  have hsees : ∀ letter rest, isLetter letter = true →
      here.sees ('\\' :: letter :: rest) = false := by
    intro letter rest hletter
    have hne : letter ≠ d := by
      rintro rfl
      rw [hd] at hletter
      cases hletter
    simp [Cursor.sees, h, List.isPrefixOf, hne]
  have hliteral : ∀ (name : String) kind, Finds (literalEnvironment name kind here) none :=
    fun name kind => finds_literalEnvironment_none (hsees 'b' _ (by decide))
  have hbegin : seesBegin here = true → Finds (environmentName here) none := by
    intro hbegin
    rw [seesBegin, hsees 'b' _ (by decide)] at hbegin
    cases hbegin
  have hverb : verb? here = none := by
    rw [verb?, hsees 'v' _ (by decide)]
    rfl
  rw [opened, Cursor.peek_of_rest h, hverb]
  refine (finds_ofOption none).orElse_none ((hliteral _ _).orElse_none
    ((hliteral _ _).orElse_none ?_))
  cases brackets with
  | some found => exact hb.orElse
  | none =>
    apply hb.orElse_none
    cases parentheses with
    | some found => exact hp.orElse
    | none =>
      exact hp.orElse_none ((finds_mathEnvironment_none hf hbegin).orElse_none
        (finds_environment_none hf hbegin))

/-- A command whose name is one character that is no letter, where no math opens. -/
theorem finds_token_of_char (hb : Finds (delimitedMath ahead .brackets here) none)
    (hp : Finds (delimitedMath ahead .parentheses here) none)
    (hargs : ¬ OpensArguments more) (mode : Mode) :
    Finds (token ahead mode here) (some (here.skip 2,
      .record .command (some (String.ofList [d])) none none false none)) := by
  refine (finds_opened_of_char hf h hd hb hp).orElse_none (Finds.orElse ?_)
  have hstart : (here.skip 1).rest = d :: more := by simp [h]
  have hlength : commandNameLength (d :: more) = 1 := by simp [commandNameLength, hd]
  have hname : (String.ofList [d] == "begin" || String.ofList [d] == "end") = false := by
    simp only [Bool.or_eq_false_iff, beq_eq_false_iff_ne]
    constructor
    · intro heq
      simpa using congrArg String.toList heq
    · intro heq
      simpa using congrArg String.toList heq
  unfold command
  rw [if_neg (by simp [Cursor.peek_of_rest h])]
  dsimp only
  rw [hstart, hlength, List.take_succ_cons, List.take_zero]
  simp only [hname, Bool.false_eq_true, if_false, Cursor.skip_skip]
  have hnext : (here.skip 2).rest = more := by simp [h]
  exact (finds_optionalArguments_none (by rw [hnext]; exact hargs)).bind (finds_pure _)

end Characters

/-! ## Environments -/

/-- The name of an environment that is read as text. -/
structure IsEnvironmentName (name : List Char) : Prop where
  no_brace : ∀ c ∈ name, c ≠ '{' ∧ c ≠ '}'
  not_math : isMathEnvironment (String.ofList name) = false
  ne_verbatim : name ≠ verbatimName.toList
  ne_comment : name ≠ commentName.toList

/-- What stands before the first closing brace is the same on both sides. -/
theorem eq_of_brace {xs ys more rest : List Char} (hx : '}' ∉ xs) (hy : '}' ∉ ys)
    (h : xs ++ '}' :: more <+: ys ++ '}' :: rest) : xs = ys := by
  induction xs generalizing ys with
  | nil =>
    cases ys with
    | nil => rfl
    | cons y ys =>
      rw [List.nil_append, List.cons_append, List.cons_prefix_cons] at h
      exact absurd (by simp [← h.1]) hy
  | cons x xs ih =>
    cases ys with
    | nil =>
      rw [List.nil_append, List.cons_append, List.cons_prefix_cons] at h
      exact absurd (by simp [h.1]) hx
    | cons y ys =>
      rw [List.cons_append, List.cons_append, List.cons_prefix_cons] at h
      rw [h.1, ih (fun hmem => hx (by simp [hmem])) (fun hmem => hy (by simp [hmem])) h.2]

section Environments

variable {ahead : Ahead} {here : Cursor} {name text : List Char}

/-- Where an environment begins there is no literal text and no math in
delimiters. -/
theorem finds_none_of_begin (ahead : Ahead) (h : here.rest = beginTag name ++ text) :
    verb? here = none ∧ ∀ delimiter, Finds (delimitedMath ahead delimiter here) none := by
  have hrest : here.rest = '\\' :: 'b' :: (['e', 'g', 'i', 'n', '{'] ++ name ++ ['}'] ++ text) := by
    simp [h, beginTag]
  refine ⟨?_, ?_⟩
  · unfold verb?
    rw [if_pos (by simp [Cursor.sees, hrest, List.isPrefixOf])]
  · intro delimiter
    apply finds_delimitedMath_none
    cases delimiter <;> simp [Cursor.sees, hrest, List.isPrefixOf, MathDelimiter.opening]

/-- Literal material is read up to the first place where it is closed, and a block
comment takes its line ending along. -/
theorem finds_literalEnvironment_of_begin {literal : String} (kind : RecordKind)
    {content : List Char}
    (hname : '\\' ∉ literal.toList) (hc : ¬ endTag literal.toList <:+: content)
    (h : here.rest = beginTag literal.toList ++ (content ++ endTag literal.toList ++ text)) :
    Finds (literalEnvironment literal kind here) (some (here.skip ((beginTag literal.toList).length
      + content.length + (endTag literal.toList).length
      + if kind == .commentEnvironment then lineEndingLength text else 0),
      .literal kind content)) := by
  have hsees : here.sees (beginTag literal.toList) = true := by
    rw [Cursor.sees, h, List.isPrefixOf_iff_prefix]
    exact List.prefix_append _ _
  have hdistance : distanceTo? (endTag literal.toList)
      (content ++ endTag literal.toList ++ text) = some content.length :=
    distanceTo_append text rfl (by simpa using hname) hc
  have hstop : (here.skip ((beginTag literal.toList).length + content.length
      + (endTag literal.toList).length)).rest = text := by
    rw [Cursor.rest_skip, h, ← List.drop_drop, ← List.drop_drop, List.drop_left, List.append_assoc,
      List.drop_left, List.drop_left]
  unfold literalEnvironment
  simp only [hsees, Bool.not_true, Bool.false_eq_true, if_false]
  rw [h, List.drop_left, hdistance]
  dsimp only
  rw [List.append_assoc, List.take_left]
  split
  · rw [hstop, Cursor.skip_skip]
    exact finds_pure _
  · exact finds_pure _

/-- Verbatim material is a token. -/
theorem finds_verbatim {content : List Char} (hc : ¬ endTag verbatimName.toList <:+: content)
    (h : here.rest
      = beginTag verbatimName.toList ++ (content ++ endTag verbatimName.toList ++ text))
    (mode : Mode) :
    Finds (token ahead mode here) (some (here.skip ((beginTag verbatimName.toList).length
      + content.length + (endTag verbatimName.toList).length), .literal .verbatim content)) := by
  have hbackslash : here.rest = '\\' :: here.rest.tail := by rw [h]; rfl
  apply Finds.orElse
  rw [opened, Cursor.peek_of_rest hbackslash, (finds_none_of_begin ahead h).1]
  exact (finds_ofOption none).orElse_none
    (finds_literalEnvironment_of_begin .verbatim (by decide) hc h).orElse

/-- A block comment is a token. -/
theorem finds_commentEnvironment {content : List Char}
    (hc : ¬ endTag commentName.toList <:+: content)
    (h : here.rest = beginTag commentName.toList ++ (content ++ endTag commentName.toList ++ text))
    (mode : Mode) :
    Finds (token ahead mode here) (some (here.skip ((beginTag commentName.toList).length
      + content.length + (endTag commentName.toList).length + lineEndingLength text),
      .literal .commentEnvironment content)) := by
  have hbackslash : here.rest = '\\' :: here.rest.tail := by rw [h]; rfl
  have hother : here.sees (beginTag verbatimName.toList) = false := by
    rw [Cursor.sees, h]
    rfl
  apply Finds.orElse
  rw [opened, Cursor.peek_of_rest hbackslash, (finds_none_of_begin ahead h).1]
  exact (finds_ofOption none).orElse_none ((finds_literalEnvironment_none hother).orElse_none
    (finds_literalEnvironment_of_begin .commentEnvironment (by decide) hc h).orElse)

/-- An environment of another name is not the literal one. -/
theorem finds_literalEnvironment_none_of_begin {literal : String} {kind : RecordKind}
    (hn : ∀ c ∈ name, c ≠ '{' ∧ c ≠ '}') (h : here.rest = beginTag name ++ text)
    (hbrace : '}' ∉ literal.toList) (hne : name ≠ literal.toList) :
    Finds (literalEnvironment literal kind here) none := by
  apply finds_literalEnvironment_none
  cases hsees : here.sees (beginTag literal.toList) with
  | false => rfl
  | true =>
    -- both names end at the first closing brace, so they are the same
    rw [Cursor.sees, h, List.isPrefixOf_iff_prefix] at hsees
    simp only [beginTag, List.append_assoc, List.prefix_append_right_inj] at hsees
    exact absurd (eq_of_brace hbrace (fun hmem => (hn _ hmem).2 rfl) hsees) hne.symm

/-- The name of an environment is what stands in braces behind its command. -/
theorem finds_environmentName (hn : ∀ c ∈ name, c ≠ '{' ∧ c ≠ '}')
    (h : here.rest = beginTag name ++ text) :
    Finds (environmentName here) (some (here.skip (beginTag name).length, name)) := by
  have hbrace : (here.skip 6).rest = ['{'] ++ (name ++ '}' :: text) := by simp [h, beginTag]
  have hopened : ((here.skip 6).skip 1).rest = name ++ '}' :: text := by simp [h, beginTag]
  have htake : ((here.skip 6).skip 1).rest.takeWhile (fun c => c != '}' && c != '{') = name := by
    rw [hopened, List.takeWhile_append_of_pos (by
      intro c hc
      simp [hn c hc])]
    simp
  have hclose : (((here.skip 6).skip 1).skip name.length).rest = ['}'] ++ text := by
    rw [Cursor.rest_skip, hopened, List.drop_left]
    rfl
  unfold environmentName
  apply (finds_literal hbrace).bind
  show Finds (do
    let next ← Reading.literal ['}'] (((here.skip 6).skip 1).skip
      (((here.skip 6).skip 1).rest.takeWhile (fun c => c != '}' && c != '{')).length)
    return (next, ((here.skip 6).skip 1).rest.takeWhile (fun c => c != '}' && c != '{'))) _
  rw [htake]
  apply (finds_literal hclose).bind
  have hskip : (((here.skip 6).skip 1).skip name.length).skip 1
      = here.skip (beginTag name).length := by
    simp only [Cursor.skip_skip, beginTag, List.length_append, List.length_cons, List.length_nil]
  rw [show ['}'].length = 1 from rfl, hskip]
  exact finds_pure _

/-- An environment without arguments is what its sequence holds, up to its own
closing tag. -/
theorem finds_environment {stop : Cursor} {items : List ParseTree} {rest : List Char}
    (hf : ahead.retrieve = Retrieval.fresh) (hn : IsEnvironmentName name)
    (h : here.rest = beginTag name ++ text)
    (hargs : ¬ OpensArguments text)
    (hs : Gives (ahead.sequence .text (some (endTag name)) (here.skip (beginTag name).length))
      (stop, items))
    (hstop : stop.rest = endTag name ++ rest) (mode : Mode) :
    Finds (token ahead mode here) (some (stop.skip (endTag name).length,
      .record .environment (some (String.ofList name)) (some (.list items)) none false none)) := by
  have hbackslash : here.rest = '\\' :: here.rest.tail := by rw [h]; rfl
  have hbegin : seesBegin here = true := by
    simp [seesBegin, Cursor.sees, h, beginTag, List.isPrefixOf]
  have hnone := finds_none_of_begin ahead h
  have hname := finds_environmentName hn.no_brace h
  apply Finds.orElse
  rw [opened, Cursor.peek_of_rest hbackslash, hnone.1]
  refine (finds_ofOption none).orElse_none
    ((finds_literalEnvironment_none_of_begin hn.no_brace h (by decide) hn.ne_verbatim).orElse_none
    ((finds_literalEnvironment_none_of_begin hn.no_brace h (by decide) hn.ne_comment).orElse_none
    ((hnone.2 .brackets).orElse_none ((hnone.2 .parentheses).orElse_none
    (Finds.orElse_none ?_ ?_)))))
  · -- the name is not one of those whose body is math
    rw [mathEnvironment, hbegin, hf]
    apply hname.bind
    simp only [hn.not_math, Bool.not_false, if_true]
    exact finds_failure.bind_none _
  · rw [environment, hbegin, hf]
    have hopened : (here.skip (beginTag name).length).rest = text := by simp [h]
    refine hname.bind ((finds_optionalArguments_none (by rw [hopened]; exact hargs)).bind ?_)
    exact hs.lift.bind ((finds_literal hstop).bind (finds_pure _))

end Environments

/-! ## Sequences -/

section Sequences

variable {ahead : Ahead} {mode : Mode} {stop : Option (List Char)} {here : Cursor}

theorem gives_sequence_stop (h : here.rest = [] ∨ stopsAt stop here = true) :
    Gives (sequence ahead mode stop here) (here, []) := by
  unfold sequence
  split
  · exact gives_pure _
  · next c hpeek =>
    have hstop : stopsAt stop here = true := by
      apply h.resolve_left
      obtain ⟨rest, hrest⟩ := Cursor.rest_ne_nil_of_peek hpeek
      simp [hrest]
    rw [if_pos hstop]
    exact gives_pure _

/-- At the end of the text there is nothing to read, however far ahead one looks. -/
theorem gives_within_end (n : Nat) (h : here.rest = []) :
    Gives ((Ahead.within Retrieval.fresh n).sequence mode stop here) (here, []) := by
  cases n with
  | zero => exact gives_pure _
  | succ n => exact gives_sequence_stop (Or.inl h)

theorem gives_sequence_cons {c : Char} {more : List Char} {next last : Cursor} {item : ParseTree}
    {items : List ParseTree} (h : here.rest = c :: more) (hc : c ≠ '\x00')
    (hs : stopsAt stop here = false) (ht : Finds (token ahead mode here) (some (next, item)))
    (hrest : Gives (ahead.sequence mode stop next) (last, items)) :
    Gives (sequence ahead mode stop here) (last, item :: items) := by
  unfold sequence
  rw [Cursor.peek_of_rest h]
  dsimp only
  rw [if_neg (by simp [hs]), if_neg (by simpa using hc)]
  exact Gives.bind ht (hrest.bind (gives_pure _))

end Sequences

end LatexFormatter
