import LatexFormatter.Proofs.Grammar.Locality

/-
  Two readings of one text that differ in what follows it. The first one stands
  before a delimiter behind a backslash, the second one before dollars. As long
  as there is text left that both share, each rule has the same outcome on both
  sides: it fails on both, or it reads the same tree on both and stops with the
  same text left. Rules do look past the end of the shared text, where they see
  different things, but what they see there does not decide: only math and
  scripts could close behind the end, and on a trail to the end they do not.
-/

namespace LatexFormatter

/-- A text whose math is delimited behind backslashes, the place where that math
ends, and the dollars that are to stand there instead. -/
structure Exchange where
  source : List Char
  last : Cursor
  old : MathDelimiter
  new : MathDelimiter
  old_eq : old = .parentheses ∨ old = .brackets
  new_eq : new = .dollar ∨ new = .dollars
  last_rest : last.rest = old.closing
  no_verb : NoVerb source

namespace Exchange

variable {x : Exchange} {u v : List Char} {here there next next' : Cursor}

theorem length_old (x : Exchange) : x.old.closing.length = 2 := by
  rcases x.old_eq with h | h <;> rw [h] <;> rfl

theorem length_last (x : Exchange) : x.last.rest.length = 2 := by
  rw [x.last_rest, x.length_old]

/-- Both cursors have the text `u` before them, and behind it what the exchange
says. -/
structure Abreast (x : Exchange) (u : List Char) (here there : Cursor) : Prop where
  rest : here.rest = u ++ x.old.closing
  rest' : there.rest = u ++ x.new.closing
  fresh : here.fresh = there.fresh
  no_dollar : '$' ∉ u
  no_verb : NoVerb u

namespace Abreast

theorem length (h : x.Abreast u here there) : here.rest.length = u.length + 2 := by
  rw [h.rest, List.length_append, x.length_old]

theorem skip (h : x.Abreast u here there) {n : Nat} (hn : n ≤ u.length) :
    x.Abreast (u.drop n) (here.skip n) (there.skip n) where
  rest := by rw [Cursor.rest_skip, h.rest, List.drop_append_of_le_length hn]
  rest' := by rw [Cursor.rest_skip, h.rest', List.drop_append_of_le_length hn]
  fresh := by
    simp only [Cursor.skip, h.rest, h.rest', h.fresh, List.take_append_of_le_length hn]
  no_dollar hmem := h.no_dollar (List.mem_of_mem_drop hmem)
  no_verb hverb := h.no_verb (hverb.trans (List.drop_suffix n u).isInfix)

theorem take (h : x.Abreast u here there) {n : Nat} (hn : n ≤ u.length) :
    here.rest.take n = u.take n ∧ there.rest.take n = u.take n := by
  rw [h.rest, h.rest', List.take_append_of_le_length hn, List.take_append_of_le_length hn]
  exact ⟨rfl, rfl⟩

theorem skipBlanks (h : x.Abreast u here there) :
    x.Abreast (u.drop (blankLength u)) here.skipBlanks there.skipBlanks := by
  rw [Cursor.skipBlanks, Cursor.skipBlanks, h.rest, h.rest', blankLength_closing,
    blankLength_closing]
  exact h.skip (runLength_le _ u)

theorem skipLineEnding (h : x.Abreast u here there) :
    x.Abreast (u.drop (lineEndingLength u)) (here.skip (lineEndingLength here.rest))
      (there.skip (lineEndingLength there.rest)) := by
  rw [h.rest, h.rest', lineEndingLength_closing, lineEndingLength_closing]
  exact h.skip (lineEndingLength_le u)

theorem cons {c : Char} (h : x.Abreast (c :: u) here there) :
    here.rest = c :: (u ++ x.old.closing) ∧ there.rest = c :: (u ++ x.new.closing) ∧ c ≠ '$' := by
  refine ⟨h.rest, h.rest', ?_⟩
  rintro rfl
  exact h.no_dollar (by simp)

theorem tail {c : Char} (h : x.Abreast (c :: u) here there) :
    x.Abreast u (here.skip 1) (there.skip 1) :=
  h.skip (n := 1) (by simp)

theorem peek_nil (h : x.Abreast [] here there) :
    here.peek = some '\\' ∧ there.peek = some '$' := by
  constructor
  · rw [Cursor.peek, h.rest]
    rcases x.old_eq with heq | heq <;> rw [heq] <;> rfl
  · rw [Cursor.peek, h.rest']
    rcases x.new_eq with heq | heq <;> rw [heq] <;> rfl

/-- No character but a backslash or a dollar is seen on one side only. -/
theorem peek_eq (h : x.Abreast u here there) {c : Char} (hb : c ≠ '\\') (hd : c ≠ '$') :
    (here.peek == some c) = (u.head? == some c) ∧
      (there.peek == some c) = (u.head? == some c) := by
  cases u with
  | nil =>
    rw [h.peek_nil.1, h.peek_nil.2]
    simp [hb.symm, hd.symm]
  | cons d u =>
    obtain ⟨hrest, hrest', -⟩ := h.cons
    rw [Cursor.peek_of_rest hrest, Cursor.peek_of_rest hrest']
    simp

/-- What has neither a backslash nor a dollar but at its head is seen on both sides
or on none. -/
theorem sees_eq (h : x.Abreast u here there) (hne : u ≠ []) (c : Char) (literal : List Char)
    (hl : '\\' ∉ literal ∧ '$' ∉ literal) :
    here.sees (c :: literal) = (c :: literal).isPrefixOf u ∧
      there.sees (c :: literal) = (c :: literal).isPrefixOf u := by
  rw [Cursor.sees, Cursor.sees, h.rest, h.rest']
  exact ⟨isPrefixOf_closing_of_tail hne hl, isPrefixOf_closing_of_tail hne hl⟩

end Abreast

/-- What both sides have read: the same on both, with the same text left. -/
def Paired {α : Type} (x : Exchange) (found found' : Cursor × α) : Prop :=
  found.2 = found'.2 ∧ ∃ v, x.Abreast v found.1 found'.1

/-- The cursors are abreast on a trail to the end of the math. -/
structure InStep (x : Exchange) (u : List Char) (here there : Cursor) : Prop
    extends x.Abreast u here there where
  within : here.Within x.source
  trail : Trail here x.last

namespace InStep

/-- Whatever trail is followed leads along the trail to the end. -/
theorem along (h : x.InStep u here there) (ht : Trail here next)
    (hv : x.Abreast v next next') : x.InStep v next next' :=
  ⟨hv, ht.within h.within, ht.resume h.trail (by rw [x.length_last, hv.length]; omega)⟩

theorem skip (h : x.InStep u here there) {n : Nat} (hn : n ≤ u.length)
    (ht : Trail here (here.skip n)) : x.InStep (u.drop n) (here.skip n) (there.skip n) :=
  h.along ht (h.toAbreast.skip hn)

/-- Of the text that is left at least the first lexeme is shared. -/
theorem lexeme_le (h : x.InStep u here there) (hne : u ≠ []) :
    lexemeLength here.rest ≤ u.length := by
  have hpos := List.length_pos_iff.2 hne
  have hlength := h.toAbreast.length
  have hle := (h.trail.next (by rw [x.length_last]; omega)).1.length_le
  rw [x.length_last, Cursor.length_skip] at hle
  omega

theorem lexeme (h : x.InStep u here there) (hne : u ≠ []) {n : Nat}
    (hn : lexemeLength here.rest = n) :
    x.InStep (u.drop n) (here.skip n) (there.skip n) := by
  have hpos := List.length_pos_iff.2 hne
  have hlength := h.toAbreast.length
  have htrail := (h.trail.next (by rw [x.length_last]; omega)).1
  have hle := h.lexeme_le hne
  rw [hn] at htrail hle
  exact ⟨h.toAbreast.skip hle, h.within.skip n, htrail⟩

theorem closes (h : x.InStep u here there) (hne : u ≠ []) : Closes here x.last := by
  have hpos := List.length_pos_iff.2 hne
  have hlength := h.toAbreast.length
  exact (h.trail.next (by rw [x.length_last]; omega)).2

theorem tail {c : Char} (h : x.InStep (c :: u) here there) (hp : c ≠ '%') (hb : c ≠ '\\') :
    x.InStep u (here.skip 1) (there.skip 1) := by
  have hn : lexemeLength here.rest = 1 := by
    rw [h.rest]
    exact lexemeLength_single _ hp hb
  exact h.lexeme (by simp) hn

theorem skipBlanks (h : x.InStep u here there) :
    x.InStep (u.drop (blankLength u)) here.skipBlanks there.skipBlanks :=
  h.along (.skipBlanks here) h.toAbreast.skipBlanks

end InStep

/-! ## Rules that need no lookahead -/

theorem Abreast.paired_readText (h : x.Abreast u here there) {n : Nat} (hn : n ≤ u.length) :
    x.Paired (here.readText n) (there.readText n) := by
  refine ⟨?_, _, h.skip hn⟩
  simp only [Cursor.readText, (h.take hn).1, (h.take hn).2]

theorem Abreast.agree_readBlanks (h : x.Abreast u here there) {n : Nat} (hn : n ≤ u.length)
    (kind : RecordKind) :
    Agree x.Paired (Reading.ofOption (here.readBlanks? n kind))
      (Reading.ofOption (there.readBlanks? n kind)) := by
  unfold Cursor.readBlanks?
  split
  · exact agree_ofOption .none
  · exact agree_ofOption (.some ⟨rfl, _, h.skip hn⟩)

theorem Abreast.agree_word (h : x.Abreast u here there) (hne : u ≠ []) (mode : Mode) :
    Agree x.Paired (word mode here) (word mode there) := by
  obtain ⟨c, more, rfl⟩ := List.exists_cons_of_ne_nil hne
  obtain ⟨hrest, hrest', -⟩ := h.cons
  have hrun : ∀ delimiter : MathDelimiter,
      runLength isPlain (c :: (more ++ delimiter.closing)) = runLength isPlain (c :: more) :=
    fun delimiter => runLength_closing delimiter (c :: more) (by decide) (by decide)
  unfold word
  rw [Cursor.peek_of_rest hrest, Cursor.peek_of_rest hrest']
  dsimp only
  refine agree_ite (fun _ => agree_failure) fun _ => agree_ite (fun _ => ?_) fun _ =>
    agree_ite (fun _ => ?_) fun _ => agree_fail _ _ _
  · exact agree_pure (h.paired_readText (by simp))
  · rw [hrest, hrest', hrun, hrun]
    exact agree_pure (h.paired_readText (runLength_le _ _))

theorem Abreast.agree_mathChar (h : x.Abreast u here there) (hne : u ≠ []) :
    Agree x.Paired (mathChar here) (mathChar there) := by
  obtain ⟨c, more, rfl⟩ := List.exists_cons_of_ne_nil hne
  obtain ⟨hrest, hrest', -⟩ := h.cons
  unfold mathChar
  rw [Cursor.peek_of_rest hrest, Cursor.peek_of_rest hrest']
  dsimp only
  refine agree_ite (fun _ => agree_fail _ _ _) fun _ => ?_
  exact agree_pure (h.paired_readText (by simp))

theorem Abreast.verb_eq_none (h : x.Abreast u here there) (hne : u ≠ []) :
    verb? here = none ∧ verb? there = none := by
  obtain ⟨hsees, hsees'⟩ := h.sees_eq hne '\\' ['v', 'e', 'r', 'b'] (by decide)
  have hnot : ['\\', 'v', 'e', 'r', 'b'].isPrefixOf u = false := by
    rw [Bool.eq_false_iff]
    intro hstarts
    exact h.no_verb (List.isPrefixOf_iff_prefix.1 hstarts).isInfix
  rw [verb?, verb?, hsees, hsees', hnot]
  exact ⟨rfl, rfl⟩

theorem Abreast.agree_literalEnvironment (h : x.Abreast u here there) (name : String)
    (kind : RecordKind) :
    Agree x.Paired (literalEnvironment name kind here) (literalEnvironment name kind there) := by
  refine relates_of_gives (finds_literalEnvironment name kind here)
    (finds_literalEnvironment name kind there) ?_
  rw [h.rest, h.rest', literalDistance_closing, literalDistance_closing]
  cases hdistance : literalDistance? name.toList u with
  | none => exact .none
  | some distance =>
    have hle := taggedLength_le hdistance
    have hbody : ∀ closing : List Char,
        ((u ++ closing).drop (beginTag name.toList).length).take distance
          = (u.drop (beginTag name.toList).length).take distance := by
      intro closing
      unfold taggedLength at hle
      rw [List.drop_append_of_le_length (by omega),
        List.take_append_of_le_length (by rw [List.length_drop]; omega)]
    refine .some ⟨by simp only [hbody], ?_⟩
    dsimp only
    split
    · exact ⟨_, (h.skip hle).skipLineEnding⟩
    · exact ⟨_, h.skip hle⟩

/-- A comment ends on its line, and so before the end of the shared text. -/
theorem InStep.paired_commentBody (h : x.InStep u here there) (hu : u.head? = some '%')
    (sameline : Bool) : x.Paired (commentBody here sameline) (commentBody there sameline) := by
  obtain ⟨more, rfl⟩ : ∃ more, u = '%' :: more := by
    cases u with
    | nil => cases hu
    | cons c more => exact ⟨more, by rw [Option.some.inj hu]⟩
  have hle := h.lexeme_le (by simp)
  rw [h.rest, List.cons_append, lexemeLength, List.length_cons] at hle
  have hcontent := comment_closing (Nat.le_of_succ_le_succ hle)
  have hlength : (more.takeWhile (!isLineBreak ·)).length + 1 ≤ ('%' :: more).length :=
    Nat.succ_le_succ (runLength_le _ more)
  have hstop := h.toAbreast.skip hlength
  simp only [commentBody, h.rest, h.rest', List.cons_append, List.drop_succ_cons, List.drop_zero,
    hcontent]
  refine ⟨rfl, ?_⟩
  rw [hstop.rest, hstop.rest', parbreakLength_closing, parbreakLength_closing]
  dsimp only
  split
  · rw [← hstop.rest, ← hstop.rest']
    exact ⟨_, hstop.skipLineEnding⟩
  · exact ⟨_, hstop⟩

/-- Where a comment on a line of its own would stand: behind a line ending, or
behind the spaces of a fresh line. -/
def ownLine? (here : Cursor) : Option Cursor :=
  let spaces := spaceLength here.rest
  let ending := lineEndingLength (here.rest.drop spaces)
  if ending != 0 then
    some (here.skip (spaces + ending + spaceLength (here.rest.drop (spaces + ending))))
  else if here.fresh then some (here.skip spaces)
  else none

theorem comment_eq_or (here : Cursor) :
    comment? here = (((ownLine? here).filter (·.peek == some '%')).map (commentBody · false)).or
      (if here.peek == some '%' then some (commentBody here true) else none) := by
  cases hown : (ownLine? here).filter (·.peek == some '%') with
  | none =>
    unfold ownLine? at hown
    simp only [comment?, hown]
    rfl
  | some there =>
    unfold ownLine? at hown
    simp only [comment?, hown]
    rfl

/-- On a line of its own only blanks stand before a comment, the same on both
sides. -/
theorem InStep.ownLine_eq (h : x.InStep u here there) :
    ownLine? here = none ∧ ownLine? there = none ∨
      ∃ n v, x.InStep v (here.skip n) (there.skip n) ∧ ownLine? here = some (here.skip n) ∧
        ownLine? there = some (there.skip n) := by
  obtain ⟨hending, hspaces, hle⟩ := aroundLength_append u (isBlank_head_closing x.old)
  obtain ⟨hending', hspaces', -⟩ := aroundLength_append u (isBlank_head_closing x.new)
  have hblanks : ∀ n, n ≤ u.length → (∀ c ∈ u.take n, isBlank c = true) →
      x.InStep (u.drop n) (here.skip n) (there.skip n) := by
    intro n hn hblank
    exact h.skip hn (.blanks (by rwa [(h.take hn).1]))
  unfold ownLine?
  simp only [h.rest, h.rest', spaceLength_closing, hending, hending', hspaces, hspaces', ← h.fresh]
  split
  · exact Or.inr ⟨_, _, hblanks _ hle fun _ => isBlank_of_mem_around, rfl, rfl⟩
  · split
    · exact Or.inr ⟨_, _, hblanks _ (spaceLength_le u) fun _ => isBlank_of_mem_spaces, rfl, rfl⟩
    · exact Or.inl ⟨rfl, rfl⟩

theorem InStep.agree_comment (h : x.InStep u here there) :
    Agree x.Paired (Reading.ofOption (comment? here)) (Reading.ofOption (comment? there)) := by
  have hbody : ∀ {v : List Char} {next next' : Cursor} (sameline : Bool), x.InStep v next next' →
      Option.Rel x.Paired
        (if next.peek == some '%' then some (commentBody next sameline) else none)
        (if next'.peek == some '%' then some (commentBody next' sameline) else none) := by
    intro v next next' sameline hv
    obtain ⟨hpeek, hpeek'⟩ := hv.peek_eq (c := '%') (by decide) (by decide)
    rw [hpeek, hpeek']
    split
    · next hhead => exact .some (hv.paired_commentBody (by simpa using hhead) sameline)
    · exact .none
  apply agree_ofOption
  rw [comment_eq_or, comment_eq_or]
  refine rel_or ?_ (hbody true h)
  rcases h.ownLine_eq with ⟨hnone, hnone'⟩ | ⟨n, v, hv, hsome, hsome'⟩
  · rw [hnone, hnone']
    exact .none
  · have hown := hbody false hv
    rw [hsome, hsome', Option.filter_some, Option.filter_some, apply_ite (Option.map _),
      apply_ite (Option.map _)]
    exact hown

/-! ## Sequences and what closes them -/

/-- What closes a sequence that no dollar opened. -/
def Closer (closing : List Char) : Prop := Closing closing ∧ closing.head? ≠ some '$'

theorem Closer.ne_nil {closing : List Char} (h : Closer closing) : closing ≠ [] := by
  rcases h.1 with rfl | rfl | ⟨delimiter, rfl⟩ | ⟨name, -, rfl⟩
  · simp
  · simp
  · cases delimiter <;> simp [MathDelimiter.closing]
  · simp [endTag]

/-- What closes a sequence is seen on both sides or on none, while there is text
left. -/
theorem Abreast.sees_closer (h : x.Abreast u here there) (hne : u ≠ []) {closing : List Char}
    (hc : Closer closing) :
    here.sees closing = closing.isPrefixOf u ∧ there.sees closing = closing.isPrefixOf u := by
  obtain ⟨hc, hdollar⟩ := hc
  rcases hc with rfl | rfl | ⟨delimiter, rfl⟩ | ⟨name, -, rfl⟩
  · exact h.sees_eq hne '}' [] (by simp)
  · exact h.sees_eq hne ']' [] (by simp)
  · cases delimiter with
    | dollar | dollars => exact absurd rfl hdollar
    | parentheses => exact h.sees_eq hne '\\' [')'] (by decide)
    | brackets => exact h.sees_eq hne '\\' [']'] (by decide)
  · rw [Cursor.sees, Cursor.sees, h.rest, h.rest']
    exact ⟨isPrefixOf_closing_of_brace _ u, isPrefixOf_closing_of_brace _ u⟩

/-- At the end of the shared text the first side only sees its own delimiter. -/
theorem eq_old_of_sees {stop : Cursor} {closing : List Char} (hc : Closer closing)
    (h : stop.rest = x.old.closing) (hs : stop.sees closing = true) : closing = x.old.closing := by
  rw [Cursor.sees, h, List.isPrefixOf_iff_prefix] at hs
  obtain ⟨hc, hdollar⟩ := hc
  have hle := hs.length_le
  rw [x.length_old] at hle
  rcases hc with rfl | rfl | ⟨delimiter, rfl⟩ | ⟨name, -, rfl⟩
  · rcases x.old_eq with heq | heq <;> simp [heq, MathDelimiter.closing] at hs
  · rcases x.old_eq with heq | heq <;> simp [heq, MathDelimiter.closing] at hs
  · apply hs.eq_of_length
    rw [x.length_old]
    cases delimiter with
    | dollar | dollars => exact absurd rfl hdollar
    | parentheses | brackets => rfl
  · simp [endTag] at hle

/-- At the end of the shared text the second side sees nothing that closes. -/
theorem sees_of_suffix {stop : Cursor} {closing : List Char} (hc : Closer closing)
    (h : stop.rest <:+ x.new.closing) : stop.sees closing = false := by
  obtain ⟨c, more, rfl⟩ := List.exists_cons_of_ne_nil hc.ne_nil
  rw [Bool.eq_false_iff]
  intro hs
  obtain ⟨rest, hrest⟩ := List.isPrefixOf_iff_prefix.1 hs
  have hmem : c ∈ x.new.closing := h.subset (by simp [← hrest])
  have hd : c = '$' := by
    rcases x.new_eq with heq | heq
    · simpa [heq, MathDelimiter.closing] using hmem
    · simpa [heq, MathDelimiter.closing] using hmem
  exact hc.2 (by simp [hd])

/-- Two sequences end in the text they share, with the same trees; or both go past
its end, and then the second one is not closed. -/
def Ended (x : Exchange) (closing : List Char) (found found' : Cursor × List ParseTree) : Prop :=
  (∃ v, v ≠ [] ∧ x.Abreast v found.1 found'.1 ∧ found.2 = found'.2) ∨
    ((found.1.rest = x.old.closing ∨ found.1.rest = []) ∧ found'.1.sees closing = false)

/-- Everything that starts in step, less than `n` characters before the end of the
first text, agrees. -/
structure Agrees (x : Exchange) (n : Nat) : Prop where
  sequence : ∀ mode closing u here there, x.InStep u here there → Closer closing →
    here.rest.length < n →
    Relates (x.Ended closing)
      ((Ahead.within Retrieval.fresh n).sequence mode (some closing) here)
      ((Ahead.within Retrieval.fresh n).sequence mode (some closing) there)
  token : ∀ mode u here there, x.InStep u here there → u ≠ [] → here.rest.length < n →
    Agree x.Paired ((Ahead.within Retrieval.fresh n).token mode here)
      ((Ahead.within Retrieval.fresh n).token mode there)

variable {n : Nat}

/-- A sequence and what closes it agree, unless the first side is closed by its own
delimiter at the very end. -/
theorem Agrees.enclosed (hl : x.Agrees n) (mode : Mode) {closing : List Char}
    (hc : Closer closing) (build : List ParseTree → ParseTree) (h : x.InStep u here there)
    (hn : here.rest.length < n) :
    Relates (fun outcome outcome' => Option.Rel x.Paired outcome outcome' ∨
        closing = x.old.closing ∧ ∃ found ∈ outcome, found.1.rest = [])
      (do
        let (stop, items) ← (Ahead.within Retrieval.fresh n).sequence mode (some closing) here
        let next ← Reading.literal closing stop
        return (next, build items) : Reading Found).run
      (do
        let (stop, items) ← (Ahead.within Retrieval.fresh n).sequence mode (some closing) there
        let next ← Reading.literal closing stop
        return (next, build items) : Reading Found).run := by
  refine (hl.sequence mode closing u here there h hc hn).lift_bind ?_
  rintro ⟨stop, items⟩ ⟨stop', items'⟩ hended
  rcases hended with ⟨v, hv, hstop, hitems⟩ | ⟨hstop, hstop'⟩
  · -- both stop in the shared text and see the same there
    obtain ⟨hsees, hsees'⟩ := hstop.sees_closer hv hc
    dsimp only at hstop hitems hsees hsees'
    refine Agree.or ?_
    cases hstarts : closing.isPrefixOf v with
    | false =>
      exact agree_none ((finds_literal_none (hsees.trans hstarts)).bind_none _)
        ((finds_literal_none (hsees'.trans hstarts)).bind_none _)
    | true =>
      have hle := (List.isPrefixOf_iff_prefix.1 hstarts).length_le
      refine agree_some ((finds_literal_of_sees (hsees.trans hstarts)).bind (finds_pure _))
        ((finds_literal_of_sees (hsees'.trans hstarts)).bind (finds_pure _)) ?_
      exact ⟨by rw [hitems], _, hstop.skip hle⟩
  · dsimp only at hstop hstop'
    have hnone := (finds_literal_none hstop').bind_none fun next =>
      (pure (next, build items') : Reading Found)
    cases hsees : stop.sees closing with
    | false =>
      exact (agree_none ((finds_literal_none hsees).bind_none _) hnone).or
    | true =>
      have hold : stop.rest = x.old.closing := by
        refine hstop.resolve_right ?_
        intro hnil
        have hle := Cursor.length_le_of_sees hsees
        rw [hnil, List.length_nil, Nat.le_zero] at hle
        exact hc.ne_nil (List.eq_nil_of_length_eq_zero hle)
      have hclosing := eq_old_of_sees hc hold hsees
      refine relates_of_gives ((finds_literal_of_sees hsees).bind (finds_pure _)) hnone ?_
      refine Or.inr ⟨hclosing, _, rfl, ?_⟩
      simp [hold, hclosing]

/-- What no delimiter closes agrees. -/
theorem Agrees.closed (hl : x.Agrees n) (mode : Mode) {closing : List Char}
    (hc : Closer closing) (hlength : closing.length ≠ 2) (build : List ParseTree → ParseTree)
    (h : x.InStep u here there) (hn : here.rest.length < n) :
    Agree x.Paired
      (do
        let (stop, items) ← (Ahead.within Retrieval.fresh n).sequence mode (some closing) here
        let next ← Reading.literal closing stop
        return (next, build items))
      (do
        let (stop, items) ← (Ahead.within Retrieval.fresh n).sequence mode (some closing) there
        let next ← Reading.literal closing stop
        return (next, build items)) := by
  refine (hl.enclosed mode hc build h hn).mono ?_
  rintro outcome outcome' (hrel | ⟨rfl, -⟩)
  · exact hrel
  · exact absurd x.length_old hlength

theorem closer_endTag {name : List Char} (hname : ∀ c ∈ name, c ≠ '{' ∧ c ≠ '}') :
    Closer (endTag name) :=
  ⟨Or.inr (Or.inr (Or.inr ⟨name, hname, rfl⟩)), by simp [endTag]⟩

theorem length_endTag (name : List Char) : (endTag name).length ≠ 2 := by
  simp [endTag]

/-! ## Rules for nested material -/

theorem agree_group (hl : x.Agrees n) (h : x.InStep u here there) (hn : here.rest.length ≤ n) :
    Agree x.Paired (group (Ahead.within Retrieval.fresh n) here)
      (group (Ahead.within Retrieval.fresh n) there) := by
  obtain ⟨hpeek, hpeek'⟩ := h.peek_eq (c := '{') (by decide) (by decide)
  unfold group
  simp only [bne, hpeek, hpeek', Ahead.retrieve_within, Retrieval.fresh]
  refine agree_ite (fun _ => agree_failure) ?_
  intro hhead
  obtain ⟨more, rfl⟩ := List.head?_eq_some_iff.1 (by simpa using hhead : u.head? = some '{')
  have hlength := h.length
  refine hl.closed .text ⟨Or.inl rfl, by simp⟩ (by simp) (.enclosing .group)
    (h.tail (by decide) (by decide)) ?_
  rw [Cursor.length_skip]
  omega

/-- Math behind a backslash agrees, unless it closes at the very end. -/
theorem relates_math (hl : x.Agrees n) (h : x.InStep u here there) (hne : u ≠ [])
    (hn : here.rest.length ≤ n) {delimiter : MathDelimiter}
    (hd : delimiter = .parentheses ∨ delimiter = .brackets) :
    Relates (fun outcome outcome' => Option.Rel x.Paired outcome outcome' ∨
        ∃ found ∈ outcome, found.1.rest = [])
      (delimitedMath (Ahead.within Retrieval.fresh n) delimiter here).run
      (delimitedMath (Ahead.within Retrieval.fresh n) delimiter there).run := by
  obtain ⟨d, hopening, hletter, hliteral⟩ : ∃ d, delimiter.opening = ['\\', d] ∧
      isLetter d = false ∧ '\\' ∉ [d] ∧ '$' ∉ [d] := by
    rcases hd with rfl | rfl
    · exact ⟨'(', rfl, by decide⟩
    · exact ⟨'[', rfl, by decide⟩
  have hcloser : Closer delimiter.closing := by
    refine ⟨Or.inr (Or.inr (Or.inl ⟨delimiter, rfl⟩)), ?_⟩
    rcases hd with rfl | rfl <;> simp [MathDelimiter.closing]
  obtain ⟨hsees, hsees'⟩ := h.sees_eq hne '\\' [d] hliteral
  rw [← hopening] at hsees hsees'
  cases hstarts : delimiter.opening.isPrefixOf u with
  | false =>
    exact (agree_none (finds_delimitedMath_none _ _ (hsees.trans hstarts))
      (finds_delimitedMath_none _ _ (hsees'.trans hstarts))).or
  | true =>
    have hlength : delimiter.opening.length = 2 := by rw [hopening]; rfl
    have hlexeme : lexemeLength here.rest = 2 := by
      rw [hopening] at hstarts
      obtain ⟨more, rfl⟩ := List.isPrefixOf_iff_prefix.1 hstarts
      rw [h.rest]
      exact lexemeLength_delimiter hletter _
    have hpos := h.lexeme_le hne
    have hhere := h.length
    simp only [delimitedMath, hsees, hsees', hstarts, Bool.not_true, Bool.false_eq_true, if_false,
      Ahead.retrieve_within, Retrieval.fresh, hlength]
    refine (hl.enclosed .math hcloser (.enclosing delimiter.kind) (h.lexeme hne hlexeme) ?_).mono ?_
    · rw [Cursor.length_skip]
      omega
    · rintro outcome outcome' (hrel | ⟨-, hfound⟩)
      · exact Or.inl hrel
      · exact Or.inr hfound

/-- Math agrees: on a trail to the end none that opens behind a backslash closes
at the very end, and there is no dollar to open any other. -/
theorem agree_delimitedMath (hl : x.Agrees n) (h : x.InStep u here there) (hne : u ≠ [])
    (hn : here.rest.length ≤ n) (delimiter : MathDelimiter) :
    Agree x.Paired (delimitedMath (Ahead.within Retrieval.fresh n) delimiter here)
      (delimitedMath (Ahead.within Retrieval.fresh n) delimiter there) := by
  have hbackslash : delimiter = .parentheses ∨ delimiter = .brackets →
      Agree x.Paired (delimitedMath (Ahead.within Retrieval.fresh n) delimiter here)
        (delimitedMath (Ahead.within Retrieval.fresh n) delimiter there) := by
    intro hd memory memory'
    rcases relates_math hl h hne hn hd memory memory' with hrel | ⟨found, hfound, hnil⟩
    · exact hrel
    · exfalso
      have houtcome := (finds_mathAt h.within hn delimiter).ensures memory found hfound
      have hle : x.last.rest.length ≤ found.1.rest.length := by
        rcases hd with rfl | rfl
        · exact h.closes hne found (Or.inl houtcome)
        · exact h.closes hne found (Or.inr (Or.inl houtcome))
      rw [x.length_last, hnil] at hle
      cases hle
  have hdollar : ∀ literal, delimiter.opening = '$' :: literal →
      Agree x.Paired (delimitedMath (Ahead.within Retrieval.fresh n) delimiter here)
        (delimitedMath (Ahead.within Retrieval.fresh n) delimiter there) := by
    intro literal hopening
    obtain ⟨c, more, rfl⟩ := List.exists_cons_of_ne_nil hne
    obtain ⟨hrest, hrest', hc⟩ := h.cons
    refine agree_none (finds_delimitedMath_none _ _ ?_) (finds_delimitedMath_none _ _ ?_)
    · rw [hopening]
      exact Cursor.sees_eq_false hrest hc.symm
    · rw [hopening]
      exact Cursor.sees_eq_false hrest' hc.symm
  cases delimiter with
  | dollar => exact hdollar [] rfl
  | dollars => exact hdollar ['$'] rfl
  | parentheses => exact hbackslash (Or.inl rfl)
  | brackets => exact hbackslash (Or.inr rfl)

theorem agree_argumentList (hl : x.Agrees n) (h : x.InStep u here there)
    (hn : here.rest.length ≤ n) :
    Agree x.Paired (argumentList (Ahead.within Retrieval.fresh n) here)
      (argumentList (Ahead.within Retrieval.fresh n) there) := by
  have hle := whitespaceLength_le u
  have hlength := h.length
  unfold argumentList
  simp only [h.rest, h.rest', whitespaceLength_closing]
  have hv := h.skip hle (.blanks (by
    rw [(h.take hle).1]
    exact fun _ => isBlank_of_mem_whitespace))
  generalize u.drop (whitespaceLength u) = v at hv
  obtain ⟨hpeek, hpeek'⟩ := hv.peek_eq (c := '[') (by decide) (by decide)
  simp only [bne, hpeek, hpeek', Ahead.retrieve_within, Retrieval.fresh]
  refine agree_ite (fun _ => agree_failure) ?_
  intro hhead
  obtain ⟨more, rfl⟩ := List.head?_eq_some_iff.1 (by simpa using hhead : v.head? = some '[')
  refine hl.closed .arguments ⟨Or.inr (Or.inl rfl), by simp⟩ (by simp) (.enclosing .arguments)
    (hv.tail (by decide) (by decide)) ?_
  simp only [Cursor.length_skip]
  omega

/-- Arguments agree, also where there is no text left. -/
theorem agree_optionalArguments (hl : x.Agrees n) (h : x.InStep u here there)
    (hn : here.rest.length ≤ n) :
    Agree x.Paired (optionalArguments (Ahead.within Retrieval.fresh n) here)
      (optionalArguments (Ahead.within Retrieval.fresh n) there) := by
  unfold optionalArguments
  refine ((agree_argumentList hl h hn).map _ _ ?_).orElse fun _ =>
    agree_pure ⟨rfl, u, h.toAbreast⟩
  rintro ⟨next, args⟩ ⟨next', args'⟩ ⟨hargs, v, hv⟩
  exact ⟨congrArg some hargs, v, hv⟩

theorem agree_command (hl : x.Agrees n) (h : x.InStep u here there) (hne : u ≠ [])
    (hn : here.rest.length ≤ n) :
    Agree x.Paired (command (Ahead.within Retrieval.fresh n) here)
      (command (Ahead.within Retrieval.fresh n) there) := by
  obtain ⟨c, more, rfl⟩ := List.exists_cons_of_ne_nil hne
  obtain ⟨hrest, hrest', -⟩ := h.cons
  have htail := h.toAbreast.tail
  unfold command
  rw [Cursor.peek_of_rest hrest, Cursor.peek_of_rest hrest']
  refine agree_ite (fun _ => agree_failure) ?_
  intro hc
  obtain rfl : c = '\\' := by simpa using hc
  -- a backslash alone would make a name of the delimiter behind it
  have hmore : more ≠ [] := by
    rintro rfl
    have hle := h.lexeme_le hne
    obtain ⟨d, hd⟩ : ∃ d, x.old.closing = '\\' :: [d] := by
      rcases x.old_eq with heq | heq <;> rw [heq] <;> exact ⟨_, rfl⟩
    rw [hrest, hd, List.nil_append, lexemeLength_delimiter (by decide)] at hle
    simp at hle
  have hle := commandNameLength_le more
  dsimp only
  rw [htail.rest, htail.rest', commandNameLength_closing _ hmore,
    commandNameLength_closing _ hmore, List.take_append_of_le_length hle,
    List.take_append_of_le_length hle]
  refine agree_ite (fun _ => agree_fail_bind _ _ _) fun _ => ?_
  refine agree_ite (fun _ => agree_failure_bind) ?_
  intro hreserved
  simp only [Bool.or_eq_true, beq_iff_eq, not_or] at hreserved
  have hlexeme : lexemeLength here.rest = commandNameLength more + 1 := by
    have htake : (more ++ x.old.closing).take (commandNameLength (more ++ x.old.closing))
        = more.take (commandNameLength more) := by
      rw [commandNameLength_closing _ hmore, List.take_append_of_le_length hle]
    rw [hrest, lexemeLength_command (by rw [htake]; exact hreserved.1)
      (by rw [htake]; exact hreserved.2), commandNameLength_closing _ hmore]
  have hnext := h.lexeme hne hlexeme
  have hlength := h.lexeme_le hne
  rw [Cursor.skip_skip, Cursor.skip_skip, Nat.add_comm 1]
  refine (agree_optionalArguments hl hnext ?_).bind ?_
  · rw [Cursor.length_skip]
    omega
  · rintro ⟨next, args⟩ ⟨next', args'⟩ ⟨hargs, v, hv⟩
    exact agree_pure ⟨by dsimp only at hargs; rw [hargs], v, hv⟩

/-- Both sides have passed over a tag with the same name, and are still in step. -/
def Tagged (x : Exchange) (here : Cursor) (found found' : Cursor × List Char) : Prop :=
  found.2 = found'.2 ∧ (∀ c ∈ found.2, c ≠ '{' ∧ c ≠ '}') ∧
    found.1.rest.length < here.rest.length ∧ ∃ v, x.InStep v found.1 found'.1

/-- The name of an environment is read on both sides or on none. -/
theorem agree_environmentName (h : x.InStep u here there) (hu : Unquoted here)
    (hbegin : seesBegin here = true) (hbegin' : seesBegin there = true) :
    Agree (x.Tagged here) (environmentName here) (environmentName there) := by
  -- a tag that is read on either side stands in the text that both share
  have htag : ∀ name, (∀ c ∈ name, c ≠ '{' ∧ c ≠ '}') → beginTag name <+: u →
      Agree (x.Tagged here) (environmentName here) (environmentName there) := by
    rintro name hname ⟨text, rfl⟩
    have hrest : here.rest = beginTag name ++ (text ++ x.old.closing) := by simp [h.rest]
    have hrest' : there.rest = beginTag name ++ (text ++ x.new.closing) := by simp [h.rest']
    have hv := h.skip (n := (beginTag name).length) (by simp)
      (trail_beginTag hname hrest hu.1 hu.2)
    refine agree_some (finds_environmentName hname hrest) (finds_environmentName hname hrest')
      ⟨rfl, hname, ?_, _, hv⟩
    rw [Cursor.length_skip, hrest]
    simp only [beginTag, List.length_append, List.length_cons]
    omega
  intro memory memory'
  cases hfound : ((environmentName here).run.run memory).1 with
  | some found =>
    obtain ⟨hname, hrest, -⟩ := ensures_tag hbegin memory found hfound
    have hstarts : beginTag found.2 <+: u ++ x.old.closing := by
      rw [← h.rest, hrest]
      exact List.prefix_append _ _
    rw [← hfound]
    exact htag found.2 hname (prefix_closing_of_brace hstarts) memory memory'
  | none =>
    cases hfound' : ((environmentName there).run.run memory').1 with
    | none => exact .none
    | some found =>
      obtain ⟨hname, hrest, -⟩ := ensures_tag hbegin' memory' found hfound'
      have hstarts : beginTag found.2 <+: u ++ x.new.closing := by
        rw [← h.rest', hrest]
        exact List.prefix_append _ _
      rw [← hfound, ← hfound']
      exact htag found.2 hname (prefix_closing_of_brace hstarts) memory memory'

theorem InStep.seesBegin_eq (h : x.InStep u here there) (hne : u ≠ []) :
    seesBegin there = seesBegin here := by
  obtain ⟨hsees, hsees'⟩ := h.sees_eq hne '\\' ['b', 'e', 'g', 'i', 'n'] (by decide)
  exact hsees'.trans hsees.symm

theorem agree_mathEnvironment (hl : x.Agrees n) (h : x.InStep u here there) (hne : u ≠ [])
    (hn : here.rest.length ≤ n) (hu : Unquoted here) :
    Agree x.Paired (mathEnvironment (Ahead.within Retrieval.fresh n) here)
      (mathEnvironment (Ahead.within Retrieval.fresh n) there) := by
  unfold mathEnvironment
  rw [h.seesBegin_eq hne]
  refine agree_ite (fun _ => agree_failure) ?_
  intro hbegin
  rw [Bool.not_eq_true', Bool.not_eq_false] at hbegin
  simp only [Ahead.retrieve_within, Retrieval.fresh]
  refine (agree_environmentName h hu hbegin ((h.seesBegin_eq hne).trans hbegin)).bind ?_
  rintro ⟨opened, name⟩ ⟨opened', name'⟩ ⟨hnames, hname, hlt, v, hv⟩
  dsimp only at hnames hname hlt hv
  subst hnames
  refine agree_ite (fun _ => agree_failure_bind) fun _ => ?_
  exact hl.closed .math (closer_endTag hname) (length_endTag name)
    (fun items => .record .mathEnvironment (some (String.ofList name)) (some (.list items)) none
      false none) hv (Nat.lt_of_lt_of_le hlt hn)

theorem agree_environment (hl : x.Agrees n) (ht : Treads x.source n) (h : x.InStep u here there)
    (hne : u ≠ []) (hn : here.rest.length ≤ n) (hu : Unquoted here) :
    Agree x.Paired (environment (Ahead.within Retrieval.fresh n) here)
      (environment (Ahead.within Retrieval.fresh n) there) := by
  unfold environment
  rw [h.seesBegin_eq hne]
  refine agree_ite (fun _ => agree_failure) ?_
  intro hbegin
  rw [Bool.not_eq_true', Bool.not_eq_false] at hbegin
  simp only [Ahead.retrieve_within, Retrieval.fresh]
  refine (agree_environmentName h hu hbegin ((h.seesBegin_eq hne).trans hbegin)).bind ?_
  rintro ⟨opened, name⟩ ⟨opened', name'⟩ ⟨hnames, hname, hlt, v, hv⟩
  dsimp only at hnames hname hlt hv
  subst hnames
  have hopened := Nat.le_trans (Nat.le_of_lt hlt) hn
  refine ((agree_optionalArguments hl hv hopened).and
    (ensures_trail_optionalArguments ht hv.within hopened)).bind ?_
  rintro ⟨start, args⟩ ⟨start', args'⟩ ⟨⟨hargs, w, hw⟩, htrail⟩
  dsimp only at hargs hw htrail
  subst hargs
  exact hl.closed .text (closer_endTag hname) (length_endTag name)
    (fun items => .record .environment (some (String.ofList name)) (some (.list items)) args
      false none) (hv.along htrail hw)
    (Nat.lt_of_le_of_lt htrail.length_le (Nat.lt_of_lt_of_le hlt hn))

theorem agree_opened (hl : x.Agrees n) (ht : Treads x.source n) (h : x.InStep u here there)
    (hne : u ≠ []) (hn : here.rest.length ≤ n) :
    Agree x.Paired (opened (Ahead.within Retrieval.fresh n) here)
      (opened (Ahead.within Retrieval.fresh n) there) := by
  obtain ⟨c, more, rfl⟩ := List.exists_cons_of_ne_nil hne
  obtain ⟨hrest, hrest', hc⟩ := h.cons
  by_cases hb : c = '\\'
  · subst hb
    obtain ⟨hverb, hverb'⟩ := h.verb_eq_none hne
    rw [opened, opened, Cursor.peek_of_rest hrest, Cursor.peek_of_rest hrest', hverb, hverb']
    refine (agree_ofOption .none).orElse fun _ => ?_
    refine (h.agree_literalEnvironment verbatimName .verbatim).orElse fun hv => ?_
    refine (h.agree_literalEnvironment commentName .commentEnvironment).orElse fun hcomment => ?_
    have hu := unquoted_of_misses hv hcomment
    refine (agree_delimitedMath hl h hne hn .brackets).orElse fun _ => ?_
    refine (agree_delimitedMath hl h hne hn .parentheses).orElse fun _ => ?_
    exact (agree_mathEnvironment hl h hne hn hu).orElse fun _ =>
      agree_environment hl ht h hne hn hu
  · exact agree_none (finds_opened_none _ hrest hc hb) (finds_opened_none _ hrest' hc hb)

/-- At the end of the first text its delimiter is read as a command. -/
theorem finds_token_old {ahead : Ahead} (hf : ahead.retrieve = Retrieval.fresh) (mode : Mode)
    (h : here.rest = x.old.closing) :
    ∃ tree, Finds (token ahead mode here) (some (here.skip 2, tree)) := by
  obtain ⟨d, hrest, hd⟩ : ∃ d, here.rest = ['\\', d] ∧ (d = ')' ∨ d = ']') := by
    rcases x.old_eq with heq | heq
    · exact ⟨')', by rw [h, heq]; rfl, Or.inl rfl⟩
    · exact ⟨']', by rw [h, heq]; rfl, Or.inr rfl⟩
  have hnone : ∀ c, c = '(' ∨ c = '[' → here.sees ['\\', c] = false := by
    intro c hc
    rw [Cursor.sees, hrest]
    rcases hc with rfl | rfl <;> rcases hd with rfl | rfl <;> decide
  have hletter : isLetter d = false := by rcases hd with rfl | rfl <;> decide
  exact ⟨_, finds_token_of_char hf hrest hletter
    (finds_delimitedMath_none ahead .brackets (hnone '[' (Or.inr rfl)))
    (finds_delimitedMath_none ahead .parentheses (hnone '(' (Or.inl rfl)))
    (by simp [OpensArguments]) mode⟩

theorem finds_script {ahead : Ahead} {c : Char} {more : List Char} {kind : RecordKind}
    {found : Found} (h : here.rest = c :: more) (hk : scriptKind? c = some kind)
    (hb : Finds (scriptBase ahead (here.skip 1).skipBlanks) (some found)) :
    Finds (script ahead here)
      (some (found.1, .record kind none (some found.2) none false none)) := by
  unfold script
  rw [Cursor.peek_of_rest h, Option.bind_some, hk]
  exact ((hb.map some).orElse).bind (finds_pure _)

/-- On a trail to the end the base of a script does not begin at the end: there
the delimiter would be the base, and the script would not close before it. -/
theorem InStep.base_ne_nil {c : Char} (h : x.InStep (c :: u) here there) {kind : RecordKind}
    (hk : scriptKind? c = some kind) : u.drop (blankLength u) ≠ [] := by
  intro hnil
  have hbase := h.toAbreast.tail.skipBlanks
  rw [hnil] at hbase
  have hrest : (here.skip 1).skipBlanks.rest = x.old.closing := hbase.rest
  obtain ⟨hhere, -, -⟩ := h.cons
  have hlength : here.rest.length = u.length + 2 + 1 := h.length.trans (by simp)
  obtain ⟨tree, htoken⟩ := finds_token_old (x := x)
    (Ahead.retrieve_within Retrieval.fresh (u.length + 2)) .math hrest
  have hscript : Finds (scriptBase (Ahead.within Retrieval.fresh here.rest.length)
      (here.skip 1).skipBlanks) (some ((here.skip 1).skipBlanks.skip 2, tree)) := by
    rw [scriptBase, hbase.peek_nil.1, hlength]
    exact htoken
  have houtcome := finds_script hhere hk hscript Memory.blank
  have hle := h.closes (by simp) _ (Or.inr (Or.inr houtcome))
  simp [x.length_last, hrest, x.length_old] at hle

theorem agree_scriptBase (hl : x.Agrees n) (h : x.InStep u here there) (hne : u ≠ [])
    (hn : here.rest.length < n) :
    Agree x.Paired (scriptBase (Ahead.within Retrieval.fresh n) here)
      (scriptBase (Ahead.within Retrieval.fresh n) there) := by
  obtain ⟨c, more, rfl⟩ := List.exists_cons_of_ne_nil hne
  obtain ⟨hrest, hrest', -⟩ := h.cons
  unfold scriptBase
  rw [Cursor.peek_of_rest hrest, Cursor.peek_of_rest hrest']
  dsimp only
  refine agree_ite (fun _ => agree_failure) fun _ => agree_ite (fun _ => ?_) fun _ => ?_
  · exact agree_group hl h (Nat.le_of_lt hn)
  · exact hl.token .math _ here there h hne hn

theorem agree_script (hl : x.Agrees n) (h : x.InStep u here there) (hne : u ≠ [])
    (hn : here.rest.length ≤ n) :
    Agree x.Paired (script (Ahead.within Retrieval.fresh n) here)
      (script (Ahead.within Retrieval.fresh n) there) := by
  obtain ⟨c, more, rfl⟩ := List.exists_cons_of_ne_nil hne
  obtain ⟨hrest, hrest', -⟩ := h.cons
  unfold script
  rw [Cursor.peek_of_rest hrest, Cursor.peek_of_rest hrest', Option.bind_some]
  cases hk : scriptKind? c with
  | none => exact agree_failure
  | some kind =>
    have hc : c ≠ '%' ∧ c ≠ '\\' := by
      constructor
      · rintro rfl
        cases hk
      · rintro rfl
        cases hk
    have hafter := h.tail hc.1 hc.2
    have hlength := (here.skip 1).length_skipBlanks_le
    have hhere := h.length
    rw [Cursor.length_skip] at hlength
    dsimp only
    have hbase : Agree (Option.Rel x.Paired)
        (some <$> scriptBase (Ahead.within Retrieval.fresh n) (here.skip 1).skipBlanks <|>
          pure none)
        (some <$> scriptBase (Ahead.within Retrieval.fresh n) (there.skip 1).skipBlanks <|>
          pure none) := by
      refine ((agree_scriptBase hl hafter.skipBlanks (h.base_ne_nil hk) ?_).map some some
        fun _ _ => .some).orElse fun _ => agree_pure .none
      omega
    refine hbase.bind ?_
    intro base base' hfound
    cases hfound with
    | none => exact agree_pure ⟨rfl, _, hafter.toAbreast⟩
    | some hfound =>
      obtain ⟨hcontent, v, hv⟩ := hfound
      exact agree_pure ⟨by rw [hcontent], v, hv⟩

/-! ## Tokens and sequences -/

theorem agree_textToken (hl : x.Agrees n) (h : x.InStep u here there) (hne : u ≠ [])
    (hn : here.rest.length ≤ n) (mode : Mode) :
    Agree x.Paired (textToken (Ahead.within Retrieval.fresh n) mode here)
      (textToken (Ahead.within Retrieval.fresh n) mode there) := by
  unfold textToken
  refine (agree_group hl h hn).orElse fun _ =>
    (agree_delimitedMath hl h hne hn .dollar).orElse fun _ => ?_
  obtain ⟨c, more, rfl⟩ := List.exists_cons_of_ne_nil hne
  obtain ⟨hrest, hrest', -⟩ := h.cons
  rw [Cursor.peek_of_rest hrest, Cursor.peek_of_rest hrest']
  dsimp only
  refine agree_ite (fun _ => agree_pure (h.paired_readText (by simp))) fun _ => ?_
  rw [h.rest, h.rest', parbreakLength_closing, parbreakLength_closing, numberLength_closing,
    numberLength_closing, whitespaceLength_closing, whitespaceLength_closing]
  refine (h.agree_readBlanks (parbreakLength_le _) .parbreak).orElse fun _ => ?_
  refine (agree_script hl h hne hn).orElse fun _ => ?_
  refine Agree.orElse (agree_ite (fun _ => agree_failure) fun _ => ?_) fun _ => ?_
  · exact agree_pure (h.paired_readText (numberLength_le _))
  · exact (h.agree_readBlanks (whitespaceLength_le _) .whitespace).orElse fun _ =>
      h.agree_word hne mode

theorem agree_mathToken (hl : x.Agrees n) (h : x.InStep u here there) (hne : u ≠ [])
    (hn : here.rest.length ≤ n) :
    Agree x.Paired (mathToken (Ahead.within Retrieval.fresh n) here)
      (mathToken (Ahead.within Retrieval.fresh n) there) := by
  have hv := h.skipBlanks
  have hinner := Nat.le_trans here.length_skipBlanks_le hn
  have hblanks : Agree x.Paired
      (Reading.ofOption (here.readBlanks? (whitespaceLength here.rest) .whitespace) <|>
        mathChar here)
      (Reading.ofOption (there.readBlanks? (whitespaceLength there.rest) .whitespace) <|>
        mathChar there) := by
    rw [h.rest, h.rest', whitespaceLength_closing, whitespaceLength_closing]
    exact (h.agree_readBlanks (whitespaceLength_le _) .whitespace).orElse fun _ =>
      h.agree_mathChar hne
  unfold mathToken
  refine ((agree_group hl hv hinner).map _ _ ?_).orElse fun _ => ?_
  · rintro ⟨next, content⟩ ⟨next', content'⟩ ⟨hcontent, w, hw⟩
    exact ⟨hcontent, _, hw.skipBlanks⟩
  · have hmark : ∀ c more, u.drop (blankLength u) = c :: more →
        x.Paired ((here.skipBlanks.skip 1).skipBlanks, ParseTree.text (String.ofList [c]))
          ((there.skipBlanks.skip 1).skipBlanks, ParseTree.text (String.ofList [c])) := by
      intro c more hmore
      rw [hmore] at hv
      exact ⟨rfl, _, hv.toAbreast.tail.skipBlanks⟩
    cases hdrop : u.drop (blankLength u) with
    | nil =>
      -- only blanks are left, and both sides see their delimiter behind them
      rw [hdrop] at hv
      rw [hv.peek_nil.1, hv.peek_nil.2]
      exact hblanks
    | cons c more =>
      have hscript := agree_script hl hv (by simp [hdrop]) hinner
      have hpair := hmark c more hdrop
      rw [hdrop] at hv
      obtain ⟨hrest, hrest', -⟩ := hv.cons
      rw [Cursor.peek_of_rest hrest, Cursor.peek_of_rest hrest']
      split
      · next heq =>
        obtain rfl := Option.some.inj heq
        exact agree_pure hpair
      · next heq =>
        obtain rfl := Option.some.inj heq
        exact agree_pure hpair
      · next heq =>
        obtain rfl := Option.some.inj heq
        exact hscript
      · next heq =>
        obtain rfl := Option.some.inj heq
        exact hscript
      · exact hblanks

theorem agree_token (hl : x.Agrees n) (ht : Treads x.source n) (h : x.InStep u here there)
    (hne : u ≠ []) (hn : here.rest.length ≤ n) (mode : Mode) :
    Agree x.Paired (token (Ahead.within Retrieval.fresh n) mode here)
      (token (Ahead.within Retrieval.fresh n) mode there) := by
  unfold token
  refine (agree_opened hl ht h hne hn).orElse fun _ =>
    (agree_command hl h hne hn).orElse fun _ => h.agree_comment.orElse fun _ => ?_
  cases mode with
  | math => exact agree_mathToken hl h hne hn
  | text => exact agree_textToken hl h hne hn .text
  | arguments => exact agree_textToken hl h hne hn .arguments

/-- Past the end of the shared text the first side stands before its delimiter or
behind it. -/
theorem rest_of_trail (h : Trail here next) (hrest : here.rest = x.old.closing) :
    next.rest = x.old.closing ∨ next.rest = [] := by
  cases h with
  | refl => exact Or.inl hrest
  | step _ _ h =>
    have hlexeme : lexemeLength here.rest = 2 := by
      rw [hrest]
      rcases x.old_eq with heq | heq <;> rw [heq] <;> exact lexemeLength_delimiter (by decide) []
    have hle := h.length_le
    rw [Cursor.length_skip, hlexeme, hrest, x.length_old] at hle
    exact Or.inr (List.eq_nil_of_length_eq_zero (Nat.le_zero.1 hle))

/-- A token of both sides, and the rest of the two sequences behind it. -/
theorem relates_sequence_of_token {mode : Mode} {stop stop' : Option (List Char)}
    {rel : Cursor × List ParseTree → Cursor × List ParseTree → Prop}
    (hl : x.Agrees n) (ht : Treads x.source n) (h : x.InStep u here there)
    (hne : u ≠ []) (hn : here.rest.length ≤ n)
    (hstop : stopsAt stop here = false) (hstop' : stopsAt stop' there = false)
    (hnone : rel (here, []) (there, []))
    (hnull : ∀ more, u = '\x00' :: more → Relates rel
      ((Ahead.within Retrieval.fresh n).sequence mode stop (here.skip 1))
      ((Ahead.within Retrieval.fresh n).sequence mode stop' (there.skip 1)))
    (hsome : ∀ v next next' item, x.InStep v next next' → next.rest.length < here.rest.length →
      Relates (fun found found' => rel (found.1, item :: found.2) (found'.1, item :: found'.2))
        ((Ahead.within Retrieval.fresh n).sequence mode stop next)
        ((Ahead.within Retrieval.fresh n).sequence mode stop' next')) :
    Relates rel (sequence (Ahead.within Retrieval.fresh n) mode stop here)
      (sequence (Ahead.within Retrieval.fresh n) mode stop' there) := by
  obtain ⟨c, more, rfl⟩ := List.exists_cons_of_ne_nil hne
  obtain ⟨hrest, hrest', -⟩ := h.cons
  unfold sequence
  rw [Cursor.peek_of_rest hrest, Cursor.peek_of_rest hrest', hstop, hstop']
  simp only [Bool.false_eq_true, if_false]
  split
  · next hc =>
    obtain rfl : c = '\x00' := by simpa using hc
    exact hnull more rfl
  · refine Relates.bind (((agree_token hl ht h hne hn mode).and
      (ensures_trail_token x.no_verb ht h.within hn mode)).and
      (ensures_further h.within hn mode)) ?_
    intro outcome outcome' houtcome
    cases houtcome with
    | none => exact relates_of_gives (gives_pure _) (gives_pure _) hnone
    | @some found found' hfound =>
      obtain ⟨next, item⟩ := found
      obtain ⟨next', item'⟩ := found'
      obtain ⟨⟨⟨hitem, v, hv⟩, htrail⟩, hlt⟩ := hfound
      dsimp only at hitem hv htrail hlt
      subst hitem
      refine (hsome v next next' item (h.along htrail hv) hlt).bind ?_
      rintro ⟨last, items⟩ ⟨last', items'⟩ hitems
      exact relates_of_gives (gives_pure _) (gives_pure _) hitems

theorem relates_sequence (hl : x.Agrees n) (ht : Treads x.source n) (h : x.InStep u here there)
    {closing : List Char} (hc : Closer closing) (hn : here.rest.length ≤ n) (mode : Mode) :
    Relates (x.Ended closing)
      (sequence (Ahead.within Retrieval.fresh n) mode (some closing) here)
      (sequence (Ahead.within Retrieval.fresh n) mode (some closing) there) := by
  by_cases hne : u = []
  · -- there is no text left, and neither side comes back to any
    subst hne
    intro memory memory'
    have hread : Yields (sequence (Ahead.within Retrieval.fresh n) mode (some closing) there)
        (UnderstoodAll mode there) := yields_sequence (understands_within n) mode (some closing)
    obtain ⟨text, -, htext, -, -⟩ := hread memory'
    have htrail := yields_trail_sequence x.no_verb ht h.within hn mode (some closing) memory
    refine Or.inr ⟨rest_of_trail htrail h.rest, sees_of_suffix (x := x) hc ?_⟩
    exact ⟨text, by rw [← htext]; exact h.rest'⟩
  · obtain ⟨hsees, hsees'⟩ := h.sees_closer hne hc
    have hhere : x.Ended closing (here, []) (there, []) := Or.inl ⟨u, hne, h.toAbreast, rfl⟩
    cases hstop : closing.isPrefixOf u with
    | true =>
      exact relates_of_gives (gives_sequence_stop (Or.inr (hsees.trans hstop)))
        (gives_sequence_stop (Or.inr (hsees'.trans hstop))) hhere
    | false =>
      refine relates_sequence_of_token hl ht h hne hn (hsees.trans hstop) (hsees'.trans hstop)
        hhere ?_ ?_
      · rintro more rfl
        have hlength := h.length
        refine hl.sequence mode closing more _ _ (h.tail (by decide) (by decide)) hc ?_
        rw [Cursor.length_skip]
        omega
      · intro v next next' item hv hlt
        refine (hl.sequence mode closing v next next' hv hc (Nat.lt_of_lt_of_le hlt hn)).mono ?_
        rintro found found' (⟨w, hw, habreast, hitems⟩ | hlost)
        · exact Or.inl ⟨w, hw, habreast, by rw [hitems]⟩
        · exact Or.inr hlost

/-- Whatever the bound, what is read within it agrees. -/
theorem agrees_within (x : Exchange) (n : Nat) : x.Agrees n := by
  induction n with
  | zero =>
    exact ⟨fun _ _ _ _ _ _ _ h => absurd h (Nat.not_lt_zero _),
      fun _ _ _ _ _ _ h => absurd h (Nat.not_lt_zero _)⟩
  | succ n ih =>
    have ht := treads_within x.no_verb n
    exact ⟨fun mode _ _ _ _ h hc hn => relates_sequence ih ht h hc (by omega) mode,
      fun mode _ _ _ h hne hn => agree_token ih ht h hne (by omega) mode⟩

end Exchange

end LatexFormatter
