import LatexFormatter.Proofs.Grammar.Derivation

/-
  The lexemes of a text: the smallest stretches that no rule ever reads in part,
  whichever alternative is being tried. A comment up to the end of its line, a
  literal environment as a whole, a tag with its name and a command with its
  name are lexemes; any other character is one by itself. Readings of the same
  text in different modes cut it into different tokens, but they all move from
  lexeme to lexeme. So what a rule reads is a trail of lexemes, and everything
  that opens on the trail of a successful rule closes before its end.
-/

namespace LatexFormatter

/-! ## The length of a lexeme -/

/-- How far the first tag that closes a literal environment is from the tag that
opens it, if the text begins with one that is closed. -/
def literalDistance? (name : List Char) (cs : List Char) : Option Nat :=
  if (beginTag name).isPrefixOf cs then
    distanceTo? (endTag name) (cs.drop (beginTag name).length)
  else none

/-- The length of an environment with that many characters between its tags. -/
def taggedLength (name : List Char) (distance : Nat) : Nat :=
  (beginTag name).length + distance + (endTag name).length

/-- The length of a name in braces. Zero where there is none. -/
def bracedLength : List Char → Nat
  | '{' :: more =>
    let name := runLength (fun c => c != '}' && c != '{') more
    if (more.drop name).head? = some '}' then name + 2 else 0
  | _ => 0

/-- The length of what a backslash begins, without it. The commands that open and
close environments take the name in braces along. -/
def controlLength (cs : List Char) : Nat :=
  let length := commandNameLength cs
  let name := cs.take length
  if name = ['b', 'e', 'g', 'i', 'n'] ∨ name = ['e', 'n', 'd'] then
    length + bracedLength (cs.drop length)
  else length

/-- The length of the lexeme at the head of a text. -/
def lexemeLength : List Char → Nat
  | [] => 0
  | '%' :: more => runLength (!isLineBreak ·) more + 1
  | '\\' :: more =>
    match literalDistance? verbatimName.toList ('\\' :: more) with
    | some distance => taggedLength verbatimName.toList distance
    | none =>
      match literalDistance? commentName.toList ('\\' :: more) with
      | some distance => taggedLength commentName.toList distance
      | none => controlLength more + 1
  | _ :: _ => 1

theorem lexemeLength_pos {cs : List Char} (h : cs ≠ []) : 0 < lexemeLength cs := by
  unfold lexemeLength
  split
  · exact absurd rfl h
  · omega
  · split
    · simp only [taggedLength, beginTag, List.length_append, List.length_cons]
      omega
    · split
      · simp only [taggedLength, beginTag, List.length_append, List.length_cons]
        omega
      · omega
  · omega

/-- A character that is a lexeme by itself and opens nothing: neither a comment,
nor a command, nor a script. -/
def isOrdinary (c : Char) : Bool := !(['%', '\\', '^', '_'].contains c)

theorem isOrdinary_iff {c : Char} :
    isOrdinary c = true ↔ c ≠ '%' ∧ c ≠ '\\' ∧ c ≠ '^' ∧ c ≠ '_' := by
  simp [isOrdinary]

/-- A character is ordinary if it has a property that the others lack. -/
theorem isOrdinary_of {p : Char → Bool} {c : Char} (h : p c = true)
    (hp : (p '%' || p '\\' || p '^' || p '_') = false) : isOrdinary c = true := by
  simp only [Bool.or_eq_false_iff] at hp
  rw [isOrdinary_iff]
  refine ⟨?_, ?_, ?_, ?_⟩ <;> rintro rfl <;> simp_all

theorem isOrdinary_of_isBlank {c : Char} (h : isBlank c = true) : isOrdinary c = true :=
  isOrdinary_of h (by decide)

theorem lexemeLength_single {c : Char} (more : List Char) (hp : c ≠ '%') (hb : c ≠ '\\') :
    lexemeLength (c :: more) = 1 := by
  unfold lexemeLength
  split
  · next heq => cases heq
  · next heq => exact absurd (List.cons.inj heq).1 hp
  · next heq => exact absurd (List.cons.inj heq).1 hb
  · rfl

/-- A name of letters ends before anything else. -/
theorem commandNameLength_letters {name rest : List Char} (hne : name ≠ [])
    (hn : ∀ c ∈ name, isLetter c = true) (hr : ∀ c ∈ rest.head?, isLetter c = false) :
    commandNameLength (name ++ rest) = name.length := by
  obtain ⟨c, more, rfl⟩ := List.exists_cons_of_ne_nil hne
  rw [List.cons_append, commandNameLength, if_pos (hn c (by simp)), ← List.cons_append]
  exact runLength_all_append hn hr

theorem commandNameLength_begin (rest : List Char) :
    commandNameLength (['b', 'e', 'g', 'i', 'n'] ++ '{' :: rest) = 5 :=
  commandNameLength_letters (by simp) (List.all_eq_true.1 rfl) (by simp [isLetter])

theorem commandNameLength_end (rest : List Char) :
    commandNameLength (['e', 'n', 'd'] ++ '{' :: rest) = 3 :=
  commandNameLength_letters (by simp) (List.all_eq_true.1 rfl) (by simp [isLetter])

/-- Only the command that opens environments can begin a literal environment. -/
theorem literalDistance_eq_none {name more : List Char}
    (h : more.take (commandNameLength more) ≠ ['b', 'e', 'g', 'i', 'n']) :
    literalDistance? name ('\\' :: more) = none := by
  unfold literalDistance?
  split
  · next hstarts =>
    obtain ⟨rest, hrest⟩ := List.isPrefixOf_iff_prefix.1 hstarts
    have hmore : more = ['b', 'e', 'g', 'i', 'n'] ++ '{' :: (name ++ ['}'] ++ rest) := by
      simpa [beginTag] using (List.cons.inj hrest).2.symm
    refine absurd ?_ h
    rw [hmore, commandNameLength_begin]
    rfl
  · rfl

theorem lexemeLength_command {more : List Char}
    (hb : String.ofList (more.take (commandNameLength more)) ≠ "begin")
    (he : String.ofList (more.take (commandNameLength more)) ≠ "end") :
    lexemeLength ('\\' :: more) = commandNameLength more + 1 := by
  have hbegin : more.take (commandNameLength more) ≠ ['b', 'e', 'g', 'i', 'n'] :=
    fun heq => hb (by rw [heq])
  have hend : more.take (commandNameLength more) ≠ ['e', 'n', 'd'] :=
    fun heq => he (by rw [heq])
  simp only [lexemeLength, literalDistance_eq_none hbegin, controlLength, hbegin, hend, or_self,
    if_false]

theorem bracedLength_name {name : List Char} (hn : ∀ c ∈ name, c ≠ '{' ∧ c ≠ '}')
    (rest : List Char) : bracedLength ('{' :: (name ++ '}' :: rest)) = name.length + 2 := by
  have hlength : runLength (fun c => c != '}' && c != '{') (name ++ '}' :: rest) = name.length := by
    refine runLength_all_append ?_ (by simp)
    intro c hc
    simp [hn c hc]
  simp [bracedLength, hlength]

/-- A tag that opens an environment which is not kept as it is. -/
theorem lexemeLength_beginTag {name : List Char} (hn : ∀ c ∈ name, c ≠ '{' ∧ c ≠ '}')
    {rest : List Char} (hv : literalDistance? verbatimName.toList (beginTag name ++ rest) = none)
    (hc : literalDistance? commentName.toList (beginTag name ++ rest) = none) :
    lexemeLength (beginTag name ++ rest) = (beginTag name).length := by
  have htag : beginTag name ++ rest
      = '\\' :: (['b', 'e', 'g', 'i', 'n'] ++ '{' :: (name ++ '}' :: rest)) := by
    simp [beginTag]
  have hcontrol : controlLength (['b', 'e', 'g', 'i', 'n'] ++ '{' :: (name ++ '}' :: rest))
      = name.length + 7 := by
    simp only [controlLength, commandNameLength_begin]
    simp [bracedLength_name hn]
    omega
  rw [htag] at hv hc ⊢
  simp only [lexemeLength, hv, hc, hcontrol, beginTag, List.length_append, List.length_cons,
    List.length_nil]
  omega

/-- A tag that closes an environment. -/
theorem lexemeLength_endTag {name : List Char} (hn : ∀ c ∈ name, c ≠ '{' ∧ c ≠ '}')
    (rest : List Char) : lexemeLength (endTag name ++ rest) = (endTag name).length := by
  have htag : endTag name ++ rest
      = '\\' :: (['e', 'n', 'd'] ++ '{' :: (name ++ '}' :: rest)) := by
    simp [endTag]
  have hcontrol : controlLength (['e', 'n', 'd'] ++ '{' :: (name ++ '}' :: rest))
      = name.length + 5 := by
    simp only [controlLength, commandNameLength_end]
    simp [bracedLength_name hn]
    omega
  have hnone : ∀ other, literalDistance? other
      ('\\' :: (['e', 'n', 'd'] ++ '{' :: (name ++ '}' :: rest))) = none :=
    fun other => literalDistance_eq_none (by rw [commandNameLength_end]; simp)
  rw [htag]
  simp only [lexemeLength, hnone, hcontrol, endTag, List.length_append, List.length_cons,
    List.length_nil]
  omega

/-- A delimiter of math that a backslash begins. -/
theorem lexemeLength_delimiter {c : Char} (hc : isLetter c = false) (more : List Char) :
    lexemeLength ('\\' :: c :: more) = 2 := by
  have hlength : commandNameLength (c :: more) = 1 := by simp [commandNameLength, hc]
  have hne : ∀ name : String, name.toList.length ≠ 1 →
      String.ofList ((c :: more).take 1) ≠ name := by
    rintro name hname rfl
    simp at hname
  rw [lexemeLength_command (by rw [hlength]; exact hne _ (by decide))
    (by rw [hlength]; exact hne _ (by decide)), hlength]

/-! ## What opens at a place -/

section Outcomes

variable {α : Type} {source : List Char} {here there : Cursor} {n : Nat}

/-- A rule that settles has one outcome, however far ahead its readers can look. -/
theorem Reads.exists_finds {depth : Nat} {p : α → Prop} {rule : Ahead → Reading α}
    (h : Reads source depth p rule) :
    ∃ outcome, ∀ n, depth ≤ n → Finds (rule (Ahead.within Retrieval.fresh n)) outcome := by
  obtain ⟨outcome, notes, -, hamounts⟩ := h
  refine ⟨outcome, fun n hn memory => ?_⟩
  rw [hamounts.memoryFree n hn memory]

/-- The outcome that a rule has at a place. -/
def outcomeAt (rule : Ahead → Cursor → Reading α) (here : Cursor) : Option α :=
  ((rule (Ahead.within Retrieval.fresh here.rest.length) here).run.run Memory.blank).1

theorem finds_outcomeAt {p : α → Prop} (rule : Ahead → Cursor → Reading α)
    (h : Reads source here.rest.length p fun ahead => rule ahead here)
    (hn : here.rest.length ≤ n) :
    Finds (rule (Ahead.within Retrieval.fresh n) here) (outcomeAt rule here) := by
  obtain ⟨outcome, houtcome⟩ := h.exists_finds
  have hat : outcomeAt rule here = outcome := houtcome _ (Nat.le_refl _) Memory.blank
  rw [hat]
  exact houtcome n hn

theorem finds_mathAt (hh : here.Within source) (hn : here.rest.length ≤ n)
    (delimiter : MathDelimiter) :
    Finds (delimitedMath (Ahead.within Retrieval.fresh n) delimiter here)
      (outcomeAt (delimitedMath · delimiter) here) :=
  finds_outcomeAt (delimitedMath · delimiter)
    (reads_delimitedMath grows_true (lookahead grows_true hh.length_le) hh (Nat.le_refl _)
      delimiter) hn

theorem finds_scriptAt (hh : here.Within source) (hn : here.rest.length ≤ n) :
    Finds (script (Ahead.within Retrieval.fresh n) here) (outcomeAt script here) :=
  finds_outcomeAt script
    (reads_script grows_true (lookahead grows_true hh.length_le) hh (Nat.le_refl _)) hn

/-- Math behind a backslash or a script that opens at `here` closes before `there`,
if it closes at all. -/
def Closes (here there : Cursor) : Prop :=
  ∀ found, outcomeAt (delimitedMath · .parentheses) here = some found ∨
    outcomeAt (delimitedMath · .brackets) here = some found ∨
    outcomeAt script here = some found → there.rest.length ≤ found.1.rest.length

theorem Closes.mono {last : Cursor} (h : Closes here there)
    (hle : last.rest.length ≤ there.rest.length) : Closes here last :=
  fun found hfound => Nat.le_trans hle (h found hfound)

theorem mathAt_eq_none {delimiter : MathDelimiter} (h : here.sees delimiter.opening = false) :
    outcomeAt (delimitedMath · delimiter) here = none :=
  finds_delimitedMath_none _ delimiter h Memory.blank

theorem scriptAt_eq_none {c : Char} {more : List Char} (h : here.rest = c :: more) (hc : c ≠ '^')
    (hc' : c ≠ '_') : outcomeAt script here = none :=
  finds_script_none _ h hc hc' Memory.blank

/-- Where there is no backslash only a script can open. -/
theorem closes_of_script {c : Char} {more : List Char} (h : here.rest = c :: more) (hc : c ≠ '\\')
    (hs : ∀ found, outcomeAt script here = some found →
      there.rest.length ≤ found.1.rest.length) : Closes here there := by
  have hnone : ∀ d, here.sees ['\\', d] = false := fun d => Cursor.sees_eq_false h hc.symm
  rintro found (hfound | hfound | hfound)
  · rw [mathAt_eq_none (hnone '(')] at hfound
    cases hfound
  · rw [mathAt_eq_none (hnone '[')] at hfound
    cases hfound
  · exact hs found hfound

theorem closes_of_ordinary {c : Char} {more : List Char} (h : here.rest = c :: more)
    (hc : isOrdinary c = true) : Closes here there := by
  obtain ⟨-, hbackslash, hsup, hsub⟩ := isOrdinary_iff.1 hc
  refine closes_of_script h hbackslash ?_
  rw [scriptAt_eq_none h hsup hsub]
  intro found hfound
  cases hfound

/-- Behind a backslash only math can open. -/
theorem closes_of_math {more : List Char} (h : here.rest = '\\' :: more)
    (hm : ∀ delimiter found, delimiter = .parentheses ∨ delimiter = .brackets →
      outcomeAt (delimitedMath · delimiter) here = some found →
      there.rest.length ≤ found.1.rest.length) : Closes here there := by
  rintro found (hfound | hfound | hfound)
  · exact hm .parentheses found (Or.inl rfl) hfound
  · exact hm .brackets found (Or.inr rfl) hfound
  · rw [scriptAt_eq_none h (by decide) (by decide)] at hfound
    cases hfound

/-- Behind a backslash no other character than a parenthesis or bracket opens
anything. -/
theorem closes_of_char {c : Char} {more : List Char} (h : here.rest = '\\' :: c :: more)
    (hp : c ≠ '(') (hb : c ≠ '[') : Closes here there := by
  refine closes_of_math h ?_
  rintro delimiter found (rfl | rfl) hfound
  · have hsees : here.sees ['\\', '('] = false := by
      simp [Cursor.sees, h, List.isPrefixOf, hp.symm]
    rw [mathAt_eq_none hsees] at hfound
    cases hfound
  · have hsees : here.sees ['\\', '['] = false := by
      simp [Cursor.sees, h, List.isPrefixOf, hb.symm]
    rw [mathAt_eq_none hsees] at hfound
    cases hfound

end Outcomes

/-! ## Trails -/

/-- The second place is reached from the first one by passing over lexemes, and
whatever opens on the way closes on the way. -/
inductive Trail : Cursor → Cursor → Prop
  | refl (here : Cursor) : Trail here here
  | step {here there : Cursor} (hne : here.rest ≠ []) (hc : Closes here there)
      (h : Trail (here.skip (lexemeLength here.rest)) there) : Trail here there

namespace Trail

variable {source : List Char} {here there last : Cursor}

theorem length_le (h : Trail here there) : there.rest.length ≤ here.rest.length := by
  induction h with
  | refl => exact Nat.le_refl _
  | step _ _ _ ih =>
    rw [Cursor.length_skip] at ih
    omega

theorem within (h : Trail here there) (hh : here.Within source) : there.Within source := by
  induction h with
  | refl => exact hh
  | step _ _ _ ih => exact ih (hh.skip _)

theorem trans (h : Trail here there) (h' : Trail there last) : Trail here last := by
  induction h with
  | refl => exact h'
  | step hne hc _ ih => exact .step hne (hc.mono h'.length_le) (ih h')

/-- A trail that has not ended goes on behind the first lexeme. -/
theorem next (h : Trail here last) (hlt : last.rest.length < here.rest.length) :
    Trail (here.skip (lexemeLength here.rest)) last ∧ Closes here last := by
  cases h with
  | refl => omega
  | step _ hc h => exact ⟨h, hc⟩

/-- Two trails from one place are the same as far as they go. -/
theorem resume (h : Trail here there) (hlast : Trail here last)
    (hle : last.rest.length ≤ there.rest.length) : Trail there last := by
  induction h with
  | refl => exact hlast
  | @step here there hne _ h ih =>
    have hlength := h.length_le
    have hpos := lexemeLength_pos hne
    have hrest := List.length_pos_iff.2 hne
    rw [Cursor.length_skip] at hlength
    exact ih (hlast.next (by omega)).1 hle

/-- A lexeme of one character. -/
theorem single {c : Char} {more : List Char} (h : here.rest = c :: more)
    (hc : isOrdinary c = true) : Trail here (here.skip 1) := by
  obtain ⟨hp, hb, -, -⟩ := isOrdinary_iff.1 hc
  refine .step (by simp [h]) (closes_of_ordinary h hc) ?_
  rw [h, lexemeLength_single more hp hb]
  exact .refl _

/-- A lexeme behind a backslash that opens no math. -/
theorem control {c : Char} {more : List Char} (h : here.rest = '\\' :: c :: more) (hp : c ≠ '(')
    (hb : c ≠ '[') {n : Nat} (hn : lexemeLength here.rest = n) : Trail here (here.skip n) := by
  refine .step (by simp [h]) (closes_of_char h hp hb) ?_
  rw [hn]
  exact .refl _

/-- Ordinary characters are passed over one by one. -/
theorem ordinary {n : Nat} (h : ∀ c ∈ here.rest.take n, isOrdinary c = true) :
    Trail here (here.skip n) := by
  induction n generalizing here with
  | zero =>
    rw [Cursor.skip_zero]
    exact .refl here
  | succ n ih =>
    cases hrest : here.rest with
    | nil =>
      have hstay : here.skip (n + 1) = here := by
        cases here
        simp_all [Cursor.skip, utf8Length]
      rw [hstay]
      exact .refl here
    | cons c more =>
      rw [hrest, List.take_succ_cons] at h
      have hmore : (here.skip 1).rest = more := by simp [hrest]
      have hnext : Trail (here.skip 1) ((here.skip 1).skip n) := by
        apply ih
        rw [hmore]
        exact fun d hd => h d (by simp [hd])
      rw [Cursor.skip_skip, Nat.add_comm] at hnext
      exact (single hrest (h c (by simp))).trans hnext

theorem blanks {n : Nat} (h : ∀ c ∈ here.rest.take n, isBlank c = true) :
    Trail here (here.skip n) :=
  ordinary fun c hc => isOrdinary_of_isBlank (h c hc)

theorem skipBlanks (here : Cursor) : Trail here here.skipBlanks := by
  apply blanks
  intro c hc
  rw [blankLength, take_runLength] at hc
  exact List.mem_takeWhile_imp hc

end Trail

/-! ## Rules that need no lookahead -/

section Rules

variable {source : List Char} {here : Cursor}

/-- Nowhere in the text does the command for literal material in a line begin. -/
def NoVerb (cs : List Char) : Prop := ¬ ['\\', 'v', 'e', 'r', 'b'] <:+: cs

theorem verb_eq_none (hv : NoVerb source) (hh : here.Within source) :
    verb? here = none := by
  have hsees : here.sees ['\\', 'v', 'e', 'r', 'b'] = false := by
    rw [Bool.eq_false_iff]
    intro hsees
    obtain ⟨n, rfl⟩ := hh
    refine hv ((List.isPrefixOf_iff_prefix.1 hsees).isInfix.trans ?_)
    exact (List.drop_suffix n source).isInfix
  rw [verb?, hsees]
  rfl

/-- A literal environment is read as far as its distance says. -/
theorem finds_literalEnvironment (name : String) (kind : RecordKind) (here : Cursor) :
    Finds (literalEnvironment name kind here)
      ((literalDistance? name.toList here.rest).map fun distance =>
        let stop := here.skip (taggedLength name.toList distance)
        let next :=
          if kind == .commentEnvironment then stop.skip (lineEndingLength stop.rest) else stop
        (next, .literal kind ((here.rest.drop (beginTag name.toList).length).take distance))) := by
  unfold literalEnvironment literalDistance? Cursor.sees
  dsimp only
  cases (beginTag name.toList).isPrefixOf here.rest with
  | false => exact finds_failure
  | true =>
    cases distanceTo? (endTag name.toList) (here.rest.drop (beginTag name.toList).length) with
    | none => exact finds_fail _ _
    | some distance => exact finds_pure _

/-- A literal environment is a lexeme; a block comment takes blanks along. -/
theorem ensures_trail_literal (name : String) (kind : RecordKind)
    (hlexeme : ∀ distance, literalDistance? name.toList here.rest = some distance →
      lexemeLength here.rest = taggedLength name.toList distance) :
    Ensures (literalEnvironment name kind here) fun found => Trail here found.1 := by
  refine (finds_literalEnvironment name kind here).ensures.mono ?_
  intro found hfound
  obtain ⟨distance, hdistance, rfl⟩ := Option.map_eq_some_iff.1 hfound
  have hsees : beginTag name.toList <+: here.rest := by
    rw [← List.isPrefixOf_iff_prefix, ← Bool.not_eq_false]
    intro hsees
    simp [literalDistance?, hsees] at hdistance
  obtain ⟨more, hmore⟩ := hsees
  have hrest : here.rest
      = '\\' :: 'b' :: (['e', 'g', 'i', 'n', '{'] ++ name.toList ++ ['}'] ++ more) := by
    simp [← hmore, beginTag]
  have hstop : Trail here (here.skip (taggedLength name.toList distance)) :=
    .control hrest (by decide) (by decide) (hlexeme distance hdistance)
  dsimp only
  split
  · exact hstop.trans (.blanks fun _ => isBlank_of_mem_lineEnding)
  · exact hstop

theorem trail_commentBody (hpeek : here.peek = some '%') (sameline : Bool) :
    Trail here (commentBody here sameline).1 := by
  obtain ⟨more, hmore⟩ := Cursor.rest_ne_nil_of_peek hpeek
  have hstop : Trail here (here.skip ((more.takeWhile (!isLineBreak ·)).length + 1)) := by
    refine .step (by simp [hmore]) (closes_of_script hmore (by decide) ?_) ?_
    · rw [scriptAt_eq_none hmore (by decide) (by decide)]
      intro found hfound
      cases hfound
    · rw [hmore]
      exact .refl _
  simp only [commentBody]
  rw [show here.rest.drop 1 = more by simp [hmore]]
  split
  · exact hstop.trans (.blanks fun _ => isBlank_of_mem_lineEnding)
  · exact hstop

theorem trail_comment : ∀ found ∈ comment? here, Trail here found.1 := by
  intro found hfound
  simp only [comment?] at hfound
  split at hfound
  · next there hfilter =>
    obtain ⟨hthere, hpeek⟩ := Option.filter_eq_some_iff.1 hfilter
    obtain rfl := Option.some.inj hfound
    rw [beq_iff_eq] at hpeek
    -- the comment stands after a line ending, or after the spaces of a fresh line
    split at hthere
    · obtain rfl := Option.some.inj hthere
      exact Trail.trans (.blanks fun _ => isBlank_of_mem_around) (trail_commentBody hpeek false)
    · split at hthere
      · obtain rfl := Option.some.inj hthere
        exact Trail.trans (.blanks fun _ => isBlank_of_mem_spaces) (trail_commentBody hpeek false)
      · cases hthere
  · split at hfound
    · next hpeek =>
      obtain rfl := Option.some.inj hfound
      exact trail_commentBody (by simpa using hpeek) true
    · cases hfound

theorem trail_readBlanks {n : Nat} {kind : RecordKind}
    (h : ∀ c ∈ here.rest.take n, isBlank c = true) :
    ∀ found ∈ here.readBlanks? n kind, Trail here found.1 := by
  intro found hfound
  unfold Cursor.readBlanks? at hfound
  split at hfound
  · cases hfound
  · obtain rfl := Option.some.inj hfound
    exact .blanks h

theorem ensures_trail_word (mode : Mode) :
    Ensures (word mode here) fun found => Trail here found.1 := by
  unfold word
  split
  · exact ensures_fail _ _
  · next c hpeek =>
    obtain ⟨more, hmore⟩ := Cursor.rest_ne_nil_of_peek hpeek
    refine ensures_ite (fun _ => ensures_failure) fun _ => ensures_ite (fun hc => ?_) fun _ =>
      ensures_ite (fun _ => ?_) fun _ => ensures_fail _ _
    · exact ensures_pure (.single hmore (isOrdinary_of hc (by decide)))
    · refine ensures_pure (.ordinary ?_)
      intro d hd
      rw [take_runLength] at hd
      exact isOrdinary_of (List.mem_takeWhile_imp hd) (by decide)

theorem Cursor.skipBlanks_eq_self {c : Char} (hpeek : here.peek = some c)
    (hc : isBlank c = false) : here.skipBlanks = here := by
  obtain ⟨more, hmore⟩ := rest_ne_nil_of_peek hpeek
  have hzero : blankLength here.rest = 0 := by simp [blankLength, runLength, hmore, hc]
  rw [skipBlanks, hzero, skip_zero]

/-- In math a character is read where it is no mark of a script. -/
theorem ensures_trail_mathChar (hsup : here.peek ≠ some '^') (hsub : here.peek ≠ some '_') :
    Ensures (mathChar here) fun found => Trail here found.1 := by
  unfold mathChar
  split
  · exact ensures_fail _ _
  · next c hpeek =>
    obtain ⟨more, hmore⟩ := Cursor.rest_ne_nil_of_peek hpeek
    refine ensures_ite (fun _ => ensures_fail _ _) fun hc => ensures_pure (.single hmore ?_)
    simp only [endsMath, Bool.or_eq_true, beq_iff_eq, not_or] at hc
    rw [hpeek] at hsup hsub
    simp only [ne_eq, Option.some.injEq] at hsup hsub
    exact isOrdinary_iff.2 ⟨hc.2, hc.1.2, hsup, hsub⟩

/-- What closes a sequence is made of lexemes. -/
def Closing (closing : List Char) : Prop :=
  closing = ['}'] ∨ closing = [']'] ∨ (∃ delimiter : MathDelimiter, closing = delimiter.closing) ∨
    ∃ name, (∀ c ∈ name, c ≠ '{' ∧ c ≠ '}') ∧ closing = endTag name

theorem trail_closing {closing : List Char} (h : Closing closing) (hs : here.sees closing = true) :
    Trail here (here.skip closing.length) := by
  obtain ⟨more, hmore⟩ := List.isPrefixOf_iff_prefix.1 hs
  rcases h with rfl | rfl | ⟨delimiter, rfl⟩ | ⟨name, hn, rfl⟩
  · exact .single hmore.symm (by decide)
  · exact .single hmore.symm (by decide)
  · cases delimiter with
    | dollar => exact .single hmore.symm (by decide)
    | dollars => exact .ordinary (by simp [← hmore, MathDelimiter.closing, isOrdinary])
    | parentheses | brackets =>
      refine .control hmore.symm (by decide) (by decide) ?_
      rw [← hmore]
      exact lexemeLength_delimiter (by decide) more
  · have hrest : here.rest = '\\' :: 'e' :: (['n', 'd', '{'] ++ name ++ ['}'] ++ more) := by
      simp [← hmore, endTag]
    exact .control hrest (by decide) (by decide) (by rw [← hmore, lexemeLength_endTag hn])

/-! ## Rules for nested material -/

variable {n : Nat}

/-- Whatever is read at places less than `n` characters before the end of the text
is a trail. -/
structure Treads (source : List Char) (n : Nat) : Prop where
  sequence : ∀ mode stop there, there.Within source → there.rest.length < n →
    Yields ((Ahead.within Retrieval.fresh n).sequence mode stop there) fun found =>
      Trail there found.1
  token : ∀ mode there, there.Within source → there.rest.length < n →
    Ensures ((Ahead.within Retrieval.fresh n).token mode there) fun found => Trail there found.1

/-- A sequence and what closes it. -/
theorem Treads.enclosed (hl : Treads source n) (mode : Mode) {closing : List Char}
    (hc : Closing closing) (build : List ParseTree → ParseTree) (hh : here.Within source)
    (hn : here.rest.length < n) :
    Ensures (do
      let (stop, items) ← (Ahead.within Retrieval.fresh n).sequence mode (some closing) here
      let next ← Reading.literal closing stop
      return (next, build items)) fun found => Trail here found.1 := by
  refine (hl.sequence mode (some closing) here hh hn).lift.bind ?_
  rintro ⟨stop, items⟩ hstop
  unfold Reading.literal
  refine Ensures.bind (p := fun next => Trail stop next) ?_ fun next hnext =>
    ensures_pure (hstop.trans hnext)
  exact ensures_ite (fun hs => ensures_pure (trail_closing hc hs)) fun _ => ensures_fail _ _

theorem ensures_trail_group (hl : Treads source n) (hh : here.Within source)
    (hn : here.rest.length ≤ n) :
    Ensures (group (Ahead.within Retrieval.fresh n) here) fun found => Trail here found.1 := by
  unfold group
  refine ensures_ite (fun _ => ensures_failure) ?_
  intro hpeek
  obtain ⟨more, hmore⟩ := Cursor.rest_ne_nil_of_peek (by simpa using hpeek)
  have hlength : (here.skip 1).rest.length < n := by
    rw [Cursor.length_skip]
    simp only [hmore, List.length_cons] at hn ⊢
    omega
  rw [Ahead.retrieve_within]
  refine (hl.enclosed .text (Or.inl rfl) (.enclosing .group) (hh.skip 1) hlength).mono ?_
  intro found hfound
  exact (Trail.single hmore (by decide)).trans hfound

/-- Math goes on behind its delimiter. -/
theorem ensures_trail_body (hl : Treads source n) (hh : here.Within source)
    (hn : here.rest.length ≤ n) (delimiter : MathDelimiter) :
    Ensures (delimitedMath (Ahead.within Retrieval.fresh n) delimiter here) fun found =>
      here.sees delimiter.opening = true ∧
        Trail (here.skip delimiter.opening.length) found.1 := by
  unfold delimitedMath
  refine ensures_ite (fun _ => ensures_failure) ?_
  intro hsees
  rw [Bool.not_eq_true', Bool.not_eq_false] at hsees
  have hlength := Cursor.length_le_of_sees hsees
  have hpos : 0 < delimiter.opening.length := by cases delimiter <;> decide
  rw [Ahead.retrieve_within]
  refine (hl.enclosed .math (Or.inr (Or.inr (Or.inl ⟨delimiter, rfl⟩)))
    (.enclosing delimiter.kind) (hh.skip _) ?_).mono fun found hfound => ⟨hsees, hfound⟩
  rw [Cursor.length_skip]
  omega

/-- Math opens at its delimiter and closes where it ends, so it is a trail. -/
theorem ensures_trail_delimitedMath (hl : Treads source n) (hh : here.Within source)
    (hn : here.rest.length ≤ n) (delimiter : MathDelimiter) :
    Ensures (delimitedMath (Ahead.within Retrieval.fresh n) delimiter here) fun found =>
      Trail here found.1 := by
  refine ((finds_mathAt hh hn delimiter).ensures.and
    (ensures_trail_body hl hh hn delimiter)).mono ?_
  rintro found ⟨hfound, hsees, hbody⟩
  obtain ⟨more, hmore⟩ := List.isPrefixOf_iff_prefix.1 hsees
  have hbackslash : ∀ c, isLetter c = false → here.rest = '\\' :: c :: more →
      (∀ other, other = .parentheses ∨ other = .brackets → other ≠ delimiter →
        here.sees other.opening = false) → Trail (here.skip 2) found.1 → Trail here found.1 := by
    intro c hc hrest hother htrail
    refine .step (by simp [hrest]) (closes_of_math hrest ?_) ?_
    · intro other found' hparen hfound'
      by_cases heq : other = delimiter
      · subst heq
        rw [hfound] at hfound'
        cases hfound'
        exact Nat.le_refl _
      · rw [mathAt_eq_none (hother other hparen heq)] at hfound'
        cases hfound'
    · rwa [hrest, lexemeLength_delimiter hc]
  cases delimiter with
  | dollar => exact (Trail.single hmore.symm (by decide)).trans hbody
  | dollars =>
    exact (Trail.ordinary (by simp [← hmore, MathDelimiter.opening, isOrdinary])).trans hbody
  | parentheses =>
    refine hbackslash '(' (by decide) hmore.symm ?_ hbody
    rintro other (rfl | rfl) hne
    · exact absurd rfl hne
    · simp [Cursor.sees, ← hmore, MathDelimiter.opening, List.isPrefixOf]
  | brackets =>
    refine hbackslash '[' (by decide) hmore.symm ?_ hbody
    rintro other (rfl | rfl) hne
    · simp [Cursor.sees, ← hmore, MathDelimiter.opening, List.isPrefixOf]
    · exact absurd rfl hne

theorem ensures_trail_optionalArguments (hl : Treads source n) (hh : here.Within source)
    (hn : here.rest.length ≤ n) :
    Ensures (optionalArguments (Ahead.within Retrieval.fresh n) here) fun found =>
      Trail here found.1 := by
  unfold optionalArguments
  refine Ensures.orElse ?_ fun _ => ensures_pure (.refl here)
  refine Ensures.map (p := fun found => Trail here found.1) _ ?_ fun _ h => h
  have hblanks : Trail here (here.skip (whitespaceLength here.rest)) :=
    .blanks fun _ => isBlank_of_mem_whitespace
  have hlength := hblanks.length_le
  have hwithin := hblanks.within hh
  unfold argumentList
  dsimp only
  generalize here.skip (whitespaceLength here.rest) = there at hblanks hlength hwithin
  refine ensures_ite (fun _ => ensures_failure) ?_
  intro hpeek
  obtain ⟨more, hmore⟩ := Cursor.rest_ne_nil_of_peek (by simpa using hpeek)
  have hnext : (there.skip 1).rest.length < n := by
    rw [Cursor.length_skip]
    simp only [hmore, List.length_cons] at hlength ⊢
    omega
  rw [Ahead.retrieve_within]
  refine (hl.enclosed .arguments (Or.inr (Or.inl rfl)) (.enclosing .arguments) (hwithin.skip 1)
    hnext).mono ?_
  intro found hfound
  exact hblanks.trans ((Trail.single hmore (by decide)).trans hfound)

/-- A command is read where no math behind a backslash was found. -/
theorem ensures_trail_command (hl : Treads source n) (hh : here.Within source)
    (hn : here.rest.length ≤ n)
    (hm : ∀ delimiter, delimiter = .parentheses ∨ delimiter = .brackets →
      outcomeAt (delimitedMath · delimiter) here = none) :
    Ensures (command (Ahead.within Retrieval.fresh n) here) fun found => Trail here found.1 := by
  unfold command
  refine ensures_ite (fun _ => ensures_failure) ?_
  intro hpeek
  obtain ⟨more, hmore⟩ := Cursor.rest_ne_nil_of_peek (by simpa using hpeek)
  have hstart : (here.skip 1).rest = more := by simp [hmore]
  dsimp only
  rw [hstart]
  refine ensures_ite (fun _ => ensures_fail_bind _ _ _) ?_
  intro hpos
  refine ensures_ite (fun _ => ensures_failure_bind _) ?_
  intro hreserved
  simp only [Bool.or_eq_true, beq_iff_eq, not_or] at hreserved
  have hlexeme : Trail here (here.skip (commandNameLength more + 1)) := by
    refine .step (by simp [hmore]) (closes_of_math hmore ?_) ?_
    · intro delimiter found hdelimiter hfound
      rw [hm delimiter hdelimiter] at hfound
      cases hfound
    · rw [hmore, lexemeLength_command hreserved.1 hreserved.2]
      exact .refl _
  have hlength := hlexeme.length_le
  rw [Cursor.skip_skip, Nat.add_comm 1]
  refine (ensures_trail_optionalArguments hl (hh.skip _) (Nat.le_trans hlength hn)).bind ?_
  rintro ⟨next, args⟩ hnext
  exact ensures_pure (hlexeme.trans hnext)

/-- The opening tag of an environment that is not kept as it is. -/
theorem trail_beginTag {name text : List Char} (hname : ∀ c ∈ name, c ≠ '{' ∧ c ≠ '}')
    (h : here.rest = beginTag name ++ text)
    (hv : literalDistance? verbatimName.toList here.rest = none)
    (hc : literalDistance? commentName.toList here.rest = none) :
    Trail here (here.skip (beginTag name).length) := by
  have hrest : here.rest = '\\' :: 'b' :: (['e', 'g', 'i', 'n', '{'] ++ name ++ ['}'] ++ text) := by
    simp [h, beginTag]
  refine .control hrest (by decide) (by decide) ?_
  rw [h] at hv hc ⊢
  exact lexemeLength_beginTag hname hv hc

/-- The name of an environment stands in the tag that was passed over. -/
theorem ensures_tag (hbegin : seesBegin here = true) :
    Ensures (environmentName here) fun found => (∀ c ∈ found.2, c ≠ '{' ∧ c ≠ '}') ∧
      here.rest = beginTag found.2 ++ found.1.rest ∧
        found.1 = here.skip (beginTag found.2).length := by
  intro memory found hfound
  obtain ⟨hrest, hname⟩ := ensures_environmentName hbegin memory found hfound
  have hbrace : ∀ c ∈ found.2, c ≠ '{' ∧ c ≠ '}' := by simpa [IsTagName] using hname
  have htag : here.rest = beginTag found.2 ++ found.1.rest := by
    simpa [openingTag, beginTag] using hrest
  refine ⟨hbrace, htag, ?_⟩
  have hskip := (finds_environmentName hbrace htag).ensures memory found hfound
  exact (congrArg Prod.fst (Option.some.inj hskip)).symm

/-- Where an environment is read as such, the rules for literal material have
found nothing. -/
def Unquoted (here : Cursor) : Prop :=
  literalDistance? verbatimName.toList here.rest = none ∧
    literalDistance? commentName.toList here.rest = none

/-- What follows the tag of an environment begins behind it, and is told its name. -/
theorem ensures_trail_tagged (hn : here.rest.length ≤ n) (hu : Unquoted here)
    (hbegin : seesBegin here = true) {rule : Cursor × List Char → Reading Found}
    (hrule : ∀ opened name, (∀ c ∈ name, c ≠ '{' ∧ c ≠ '}') → Trail here opened →
      opened.rest.length < n → Ensures (rule (opened, name)) fun found => Trail opened found.1) :
    Ensures (environmentName here >>= rule) fun found => Trail here found.1 := by
  refine (ensures_tag hbegin).bind ?_
  rintro ⟨opened, name⟩ ⟨hname, hrest, hopened⟩
  dsimp only at hname hrest hopened
  have htag := trail_beginTag hname hrest hu.1 hu.2
  rw [← hopened] at htag
  have hlength : opened.rest.length < n := by
    simp only [hrest, beginTag, List.length_append, List.length_cons] at hn
    omega
  exact (hrule opened name hname htag hlength).mono fun found hfound => htag.trans hfound

theorem ensures_trail_mathEnvironment (hl : Treads source n) (hh : here.Within source)
    (hn : here.rest.length ≤ n) (hu : Unquoted here) :
    Ensures (mathEnvironment (Ahead.within Retrieval.fresh n) here) fun found =>
      Trail here found.1 := by
  unfold mathEnvironment
  refine ensures_ite (fun _ => ensures_failure) ?_
  intro hbegin
  rw [Bool.not_eq_true', Bool.not_eq_false] at hbegin
  rw [Ahead.retrieve_within]
  refine ensures_trail_tagged hn hu hbegin ?_
  intro opened name hname htag hlength
  refine ensures_ite (fun _ => ensures_failure_bind _) fun _ => ?_
  exact hl.enclosed .math (Or.inr (Or.inr (Or.inr ⟨name, hname, rfl⟩)))
    (fun items => .record .mathEnvironment (some (String.ofList name)) (some (.list items)) none
      false none) (htag.within hh) hlength

theorem ensures_trail_environment (hl : Treads source n) (hh : here.Within source)
    (hn : here.rest.length ≤ n) (hu : Unquoted here) :
    Ensures (environment (Ahead.within Retrieval.fresh n) here) fun found =>
      Trail here found.1 := by
  unfold environment
  refine ensures_ite (fun _ => ensures_failure) ?_
  intro hbegin
  rw [Bool.not_eq_true', Bool.not_eq_false] at hbegin
  rw [Ahead.retrieve_within]
  refine ensures_trail_tagged hn hu hbegin ?_
  intro opened name hname htag hlength
  have hopened := htag.within hh
  refine (ensures_trail_optionalArguments hl hopened (Nat.le_of_lt hlength)).bind ?_
  rintro ⟨start, args⟩ hstart
  exact (hl.enclosed .text (Or.inr (Or.inr (Or.inr ⟨name, hname, rfl⟩)))
    (fun items => .record .environment (some (String.ofList name)) (some (.list items)) args
      false none) (hstart.within hopened) (Nat.lt_of_le_of_lt hstart.length_le hlength)).mono
    fun found hfound => hstart.trans hfound

theorem unquoted_of_misses (hv : Misses (literalEnvironment verbatimName .verbatim here))
    (hc : Misses (literalEnvironment commentName .commentEnvironment here)) : Unquoted here :=
  ⟨Option.map_eq_none_iff.1 ((finds_literalEnvironment _ _ here).eq_none hv),
    Option.map_eq_none_iff.1 ((finds_literalEnvironment _ _ here).eq_none hc)⟩

theorem ensures_trail_opened (hverb : NoVerb source)
    (hl : Treads source n) (hh : here.Within source) (hn : here.rest.length ≤ n) :
    Ensures (opened (Ahead.within Retrieval.fresh n) here) fun found => Trail here found.1 := by
  unfold opened
  split
  · exact ensures_trail_delimitedMath hl hh hn .dollars
  · next hpeek =>
    obtain ⟨more, hmore⟩ := Cursor.rest_ne_nil_of_peek hpeek
    rw [verb_eq_none hverb hh]
    refine Ensures.orElse (ensures_ofOption (by simp)) fun _ => ?_
    refine Ensures.orElse (ensures_trail_literal verbatimName .verbatim ?_) fun hv => ?_
    · intro distance hdistance
      rw [hmore] at hdistance ⊢
      simp only [lexemeLength, hdistance]
    have hnone := Option.map_eq_none_iff.1 ((finds_literalEnvironment _ _ here).eq_none hv)
    refine Ensures.orElse (ensures_trail_literal commentName .commentEnvironment ?_) fun hc => ?_
    · intro distance hdistance
      rw [hmore] at hdistance hnone ⊢
      simp only [lexemeLength, hdistance, hnone]
    have hu := unquoted_of_misses hv hc
    refine (ensures_trail_delimitedMath hl hh hn .brackets).orElse fun _ => ?_
    refine (ensures_trail_delimitedMath hl hh hn .parentheses).orElse fun _ => ?_
    exact (ensures_trail_mathEnvironment hl hh hn hu).orElse fun _ =>
      ensures_trail_environment hl hh hn hu
  · exact ensures_failure

/-- Where nothing opens behind a backslash there is no math. -/
theorem mathAt_eq_none_of_misses (hh : here.Within source) (hn : here.rest.length ≤ n)
    (hm : Misses (opened (Ahead.within Retrieval.fresh n) here)) {delimiter : MathDelimiter}
    (hd : delimiter = .parentheses ∨ delimiter = .brackets) :
    outcomeAt (delimitedMath · delimiter) here = none := by
  cases hsees : here.sees delimiter.opening with
  | false => exact mathAt_eq_none hsees
  | true =>
    have hpeek : here.peek = some '\\' := by
      obtain ⟨more, hmore⟩ := List.isPrefixOf_iff_prefix.1 hsees
      rcases hd with rfl | rfl <;> exact Cursor.peek_of_rest hmore.symm
    rw [opened, hpeek] at hm
    obtain ⟨-, hm⟩ := misses_orElse hm
    obtain ⟨-, hm⟩ := misses_orElse hm
    obtain ⟨-, hm⟩ := misses_orElse hm
    obtain ⟨hbrackets, hm⟩ := misses_orElse hm
    obtain ⟨hparentheses, -⟩ := misses_orElse hm
    rcases hd with rfl | rfl
    · exact (finds_mathAt hh hn .parentheses).eq_none hparentheses
    · exact (finds_mathAt hh hn .brackets).eq_none hbrackets

theorem ensures_trail_scriptBase (hl : Treads source n) (hh : here.Within source)
    (hn : here.rest.length < n) :
    Ensures (scriptBase (Ahead.within Retrieval.fresh n) here) fun found =>
      Trail here found.1 := by
  unfold scriptBase
  split
  · exact ensures_failure
  · refine ensures_ite (fun _ => ensures_failure) fun _ => ensures_ite (fun _ => ?_) fun _ => ?_
    · exact ensures_trail_group hl hh (Nat.le_of_lt hn)
    · exact hl.token .math here hh hn

/-- A script opens at its mark and closes where it ends, so it is a trail. -/
theorem ensures_trail_script (hl : Treads source n) (hh : here.Within source)
    (hn : here.rest.length ≤ n) :
    Ensures (script (Ahead.within Retrieval.fresh n) here) fun found => Trail here found.1 := by
  have hbody : Ensures (script (Ahead.within Retrieval.fresh n) here) fun found =>
      (∃ c more, here.rest = c :: more ∧ (c = '^' ∨ c = '_')) ∧ Trail (here.skip 1) found.1 := by
    unfold script
    split
    · exact ensures_failure
    · next kind hkind =>
      obtain ⟨c, hpeek, hkind⟩ := Option.bind_eq_some_iff.1 hkind
      obtain ⟨more, hmore⟩ := Cursor.rest_ne_nil_of_peek hpeek
      have hmark : c = '^' ∨ c = '_' := by
        unfold scriptKind? at hkind
        split at hkind
        · exact Or.inl rfl
        · exact Or.inr rfl
        · cases hkind
      have hblanks := Trail.skipBlanks (here.skip 1)
      have hlength := hblanks.length_le
      rw [Cursor.length_skip, hmore, List.length_cons] at hlength
      rw [hmore, List.length_cons] at hn
      dsimp only
      refine Ensures.bind (p := fun base => ∀ found ∈ base, Trail (here.skip 1) found.1) ?_ ?_
      · refine ((ensures_trail_scriptBase hl (hh.skip 1).skipBlanks (by omega)).map some ?_).orElse
          fun _ => ensures_pure (by simp)
        intro found hfound
        simpa using hblanks.trans hfound
      · intro base hbase
        refine Ensures.mono (p := fun found => Trail (here.skip 1) found.1) ?_ fun found hfound =>
          ⟨⟨c, more, hmore, hmark⟩, hfound⟩
        cases base with
        | none => exact ensures_pure (.refl _)
        | some found => exact ensures_pure (hbase found rfl)
  refine ((finds_scriptAt hh hn).ensures.and hbody).mono ?_
  rintro found ⟨hfound, ⟨c, more, hmore, hmark⟩, htrail⟩
  have hc : c ≠ '%' ∧ c ≠ '\\' := by rcases hmark with rfl | rfl <;> decide
  refine .step (by simp [hmore]) (closes_of_script hmore hc.2 ?_) ?_
  · intro found' hfound'
    rw [hfound] at hfound'
    cases hfound'
    exact Nat.le_refl _
  · rwa [hmore, lexemeLength_single more hc.1 hc.2]

/-! ## Tokens and sequences -/

theorem isOrdinary_of_mem_number {cs : List Char} {c : Char}
    (h : c ∈ cs.take (numberLength cs)) : isOrdinary c = true := by
  rcases isDigit_of_mem_number h with hc | rfl
  · exact isOrdinary_of hc (by decide)
  · decide

theorem ensures_trail_textToken (hl : Treads source n) (hh : here.Within source)
    (hn : here.rest.length ≤ n) (mode : Mode) :
    Ensures (textToken (Ahead.within Retrieval.fresh n) mode here) fun found =>
      Trail here found.1 := by
  unfold textToken
  refine (ensures_trail_group hl hh hn).orElse fun _ =>
    (ensures_trail_delimitedMath hl hh hn .dollar).orElse fun _ => ?_
  split
  · exact ensures_failure
  · next c hpeek =>
    obtain ⟨more, hmore⟩ := Cursor.rest_ne_nil_of_peek hpeek
    refine ensures_ite (fun hc => ensures_pure (.single hmore ?_)) fun _ => ?_
    · exact isOrdinary_of (p := fun c => c == '&' || c == '#') hc (by decide)
    refine (ensures_ofOption (trail_readBlanks ?_)).orElse fun _ => ?_
    · intro d hd
      unfold parbreakLength at hd
      split at hd
      · rw [blankLength, take_runLength] at hd
        exact List.mem_takeWhile_imp hd
      · simp at hd
    refine (ensures_trail_script hl hh hn).orElse fun _ => ?_
    refine Ensures.orElse (ensures_ite (fun _ => ensures_failure) fun _ => ?_) fun _ => ?_
    · exact ensures_pure (.ordinary fun d hd => isOrdinary_of_mem_number hd)
    · exact (ensures_ofOption (trail_readBlanks fun _ => isBlank_of_mem_whitespace)).orElse
        fun _ => ensures_trail_word mode

theorem ensures_trail_mathToken (hl : Treads source n) (hh : here.Within source)
    (hn : here.rest.length ≤ n) :
    Ensures (mathToken (Ahead.within Retrieval.fresh n) here) fun found => Trail here found.1 := by
  unfold mathToken
  have hblanks := Trail.skipBlanks here
  have hinner := Nat.le_trans hblanks.length_le hn
  have hmark : ∀ c, here.skipBlanks.peek = some c → isOrdinary c = true →
      Trail here (here.skipBlanks.skip 1).skipBlanks := by
    intro c hpeek hc
    obtain ⟨more, hmore⟩ := Cursor.rest_ne_nil_of_peek hpeek
    exact hblanks.trans ((Trail.single hmore hc).trans (.skipBlanks _))
  refine Ensures.orElse ((ensures_trail_group hl hh.skipBlanks hinner).map _ ?_) fun _ => ?_
  · rintro ⟨next, content⟩ hnext
    exact hblanks.trans (hnext.trans (.skipBlanks next))
  · split
    · next hpeek => exact ensures_pure (hmark '&' hpeek (by decide))
    · next hpeek => exact ensures_pure (hmark '#' hpeek (by decide))
    · exact (ensures_trail_script hl hh.skipBlanks hinner).mono fun _ h => hblanks.trans h
    · exact (ensures_trail_script hl hh.skipBlanks hinner).mono fun _ h => hblanks.trans h
    · next hsup hsub =>
      -- a mark of a script would have been found before the blanks were looked for
      have hnot : ∀ c, isBlank c = false → here.skipBlanks.peek ≠ some c → here.peek ≠ some c := by
        intro c hc hne hpeek
        rw [Cursor.skipBlanks_eq_self hpeek hc] at hne
        exact hne hpeek
      exact (ensures_ofOption (trail_readBlanks fun _ => isBlank_of_mem_whitespace)).orElse
        fun _ => ensures_trail_mathChar (hnot '^' (by decide) hsup) (hnot '_' (by decide) hsub)

theorem ensures_trail_token (hverb : NoVerb source)
    (hl : Treads source n) (hh : here.Within source) (hn : here.rest.length ≤ n) (mode : Mode) :
    Ensures (token (Ahead.within Retrieval.fresh n) mode here) fun found =>
      Trail here found.1 := by
  unfold token
  refine (ensures_trail_opened hverb hl hh hn).orElse fun hm => ?_
  refine (ensures_trail_command hl hh hn fun _ hd =>
    mathAt_eq_none_of_misses hh hn hm hd).orElse fun _ => ?_
  refine (ensures_ofOption trail_comment).orElse fun _ => ?_
  cases mode with
  | math => exact ensures_trail_mathToken hl hh hn
  | text => exact ensures_trail_textToken hl hh hn .text
  | arguments => exact ensures_trail_textToken hl hh hn .arguments

/-- A token is never empty. -/
theorem ensures_further (hh : here.Within source) (hn : here.rest.length ≤ n) (mode : Mode) :
    Ensures (token (Ahead.within Retrieval.fresh n) mode here) fun found =>
      found.1.rest.length < here.rest.length := by
  obtain ⟨outcome, notes, hfurther, hamounts⟩ :=
    reads_token grows_true (lookahead grows_true hh.length_le) hh (Nat.le_refl _) mode
  intro memory found hfound
  rw [hamounts.memoryFree n hn memory] at hfound
  exact (hfurther found hfound).2.1

theorem yields_trail_sequence (hverb : NoVerb source)
    (hl : Treads source n) (hh : here.Within source) (hn : here.rest.length ≤ n) (mode : Mode)
    (stop : Option (List Char)) :
    Yields (sequence (Ahead.within Retrieval.fresh n) mode stop here) fun found =>
      Trail here found.1 := by
  unfold sequence
  split
  · exact yields_pure (.refl here)
  · next c hpeek =>
    obtain ⟨more, hmore⟩ := Cursor.rest_ne_nil_of_peek hpeek
    have hnext : (here.skip 1).rest.length < n := by
      simp only [Cursor.length_skip, hmore, List.length_cons] at hn ⊢
      omega
    split
    · exact yields_pure (.refl here)
    · split
      · next hc =>
        obtain rfl : c = '\x00' := by simpa using hc
        have htrail := Trail.single hmore (by decide)
        intro memory
        exact htrail.trans (hl.sequence mode stop _ (hh.skip 1) hnext memory)
      · refine Yields.bind ((ensures_trail_token hverb hl hh hn mode).and
          (ensures_further hh hn mode)) ?_
        intro outcome houtcome
        cases outcome with
        | none => exact yields_pure (.refl here)
        | some found =>
          obtain ⟨next, item⟩ := found
          obtain ⟨htrail, hlt⟩ := houtcome _ rfl
          refine (hl.sequence mode stop next (htrail.within hh) (Nat.lt_of_lt_of_le hlt hn)).bind ?_
          rintro ⟨last, items⟩ hlast
          exact yields_pure (htrail.trans hlast)

/-- Whatever the bound, what is read within it is a trail. -/
theorem treads_within (hverb : NoVerb source) (n : Nat) :
    Treads source n := by
  induction n with
  | zero =>
    exact ⟨fun _ _ _ _ h => absurd h (Nat.not_lt_zero _),
      fun _ _ _ h => absurd h (Nat.not_lt_zero _)⟩
  | succ n ih =>
    exact ⟨fun mode stop _ hh hn => yields_trail_sequence hverb ih hh (by omega) mode stop,
      fun mode _ hh hn => ensures_trail_token hverb ih hh (by omega) mode⟩

end Rules

end LatexFormatter
