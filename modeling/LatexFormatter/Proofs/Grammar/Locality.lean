import LatexFormatter.Proofs.Grammar.Lexemes
import Mathlib.Data.Option.Basic

/-
  What a text has on its own, whatever delimiter of math stands behind it. The
  lengths that the grammar measures end before a delimiter, because none of them
  goes past a backslash or a dollar, and what is looked for as a whole does not
  begin in the text and end in the delimiter. Two readings of one text before
  different delimiters can therefore be compared rule by rule; the judgements
  for that come first.
-/

namespace LatexFormatter

/-! ## Outcomes of two readings -/

/-- The results of the two readings are related, whatever each of them
remembers. -/
def Relates {α β : Type} (rel : α → β → Prop) (reading : StateM Memory α)
    (other : StateM Memory β) : Prop :=
  ∀ memory memory', rel (reading.run memory).1 (other.run memory').1

/-- Both rules fail, or both succeed and their results are related. -/
def Agree {α β : Type} (rel : α → β → Prop) (rule : Reading α) (other : Reading β) : Prop :=
  Relates (Option.Rel rel) rule.run other.run

section Judgements

variable {α β γ δ : Type} {rel : α → β → Prop} {rel' : γ → δ → Prop}

theorem relates_of_gives {reading : StateM Memory α} {other : StateM Memory β} {a : α} {b : β}
    (h : Gives reading a) (h' : Gives other b) (hrel : rel a b) : Relates rel reading other := by
  intro memory memory'
  rw [h memory, h' memory']
  exact hrel

theorem Relates.bind {reading : StateM Memory α} {other : StateM Memory β}
    {rest : α → StateM Memory γ} {rest' : β → StateM Memory δ} (h : Relates rel reading other)
    (hrest : ∀ a b, rel a b → Relates rel' (rest a) (rest' b)) :
    Relates rel' (reading >>= rest) (other >>= rest') := by
  intro memory memory'
  rw [StateT.run_bind, StateT.run_bind]
  exact hrest _ _ (h memory memory') _ _

theorem Relates.mono {rel₂ : α → β → Prop} {reading : StateM Memory α} {other : StateM Memory β}
    (h : Relates rel reading other) (hrel : ∀ a b, rel a b → rel₂ a b) :
    Relates rel₂ reading other :=
  fun memory memory' => hrel _ _ (h memory memory')

theorem Relates.lift_bind {reading : StateM Memory α} {other : StateM Memory β}
    {rest : α → Reading γ} {rest' : β → Reading δ} {rel' : Option γ → Option δ → Prop}
    (h : Relates rel reading other)
    (hrest : ∀ a b, rel a b → Relates rel' (rest a).run (rest' b).run) :
    Relates rel' ((liftM reading : Reading α) >>= rest).run
      ((liftM other : Reading β) >>= rest').run :=
  fun memory memory' => hrest _ _ (h memory memory') _ _

theorem rel_or {a a' : Option α} {b b' : Option β} (h : Option.Rel rel a b)
    (h' : Option.Rel rel a' b') : Option.Rel rel (a.or a') (b.or b') := by
  cases h with
  | none => exact h'
  | some hrel => exact .some hrel

theorem agree_none {rule : Reading α} {other : Reading β} (h : Finds rule none)
    (h' : Finds other none) : Agree rel rule other :=
  relates_of_gives h h' .none

theorem agree_some {rule : Reading α} {other : Reading β} {a : α} {b : β}
    (h : Finds rule (some a)) (h' : Finds other (some b)) (hrel : rel a b) :
    Agree rel rule other :=
  relates_of_gives h h' (.some hrel)

theorem agree_failure : Agree rel (failure : Reading α) (failure : Reading β) :=
  agree_none finds_failure finds_failure

theorem agree_fail (offset offset' : Nat) (what : String) :
    Agree rel (Reading.fail offset what : Reading α) (Reading.fail offset' what : Reading β) :=
  agree_none (finds_fail _ _) (finds_fail _ _)

theorem agree_pure {a : α} {b : β} (h : rel a b) :
    Agree rel (pure a : Reading α) (pure b : Reading β) :=
  agree_some (finds_pure a) (finds_pure b) h

theorem agree_ofOption {value : Option α} {other : Option β} (h : Option.Rel rel value other) :
    Agree rel (Reading.ofOption value) (Reading.ofOption other) :=
  relates_of_gives (finds_ofOption value) (finds_ofOption other) h

theorem Agree.bind {rule : Reading α} {other : Reading β} {rest : α → Reading γ}
    {rest' : β → Reading δ} (h : Agree rel rule other)
    (hrest : ∀ a b, rel a b → Agree rel' (rest a) (rest' b)) :
    Agree rel' (rule >>= rest) (other >>= rest') := by
  unfold Agree
  simp only [OptionT.run_bind, Option.elimM]
  refine Relates.bind h ?_
  intro outcome outcome' houtcome
  cases houtcome with
  | none => exact agree_failure
  | some hab => exact hrest _ _ hab

theorem agree_fail_bind {rest : α → Reading γ} {rest' : β → Reading δ} (offset offset' : Nat)
    (what : String) :
    Agree rel' (Reading.fail offset what >>= rest) (Reading.fail offset' what >>= rest') :=
  agree_none ((finds_fail _ _).bind_none _) ((finds_fail _ _).bind_none _)

theorem agree_failure_bind {rest : α → Reading γ} {rest' : β → Reading δ} :
    Agree rel' (failure >>= rest) (failure >>= rest') :=
  agree_none (finds_failure.bind_none _) (finds_failure.bind_none _)

theorem Agree.map {rule : Reading α} {other : Reading β} (f : α → γ) (g : β → δ)
    (h : Agree rel rule other) (hfg : ∀ a b, rel a b → rel' (f a) (g b)) :
    Agree rel' (f <$> rule) (g <$> other) :=
  h.bind fun a b hab => agree_pure (hfg a b hab)

/-- The second alternatives are only tried where both first ones miss. -/
theorem Agree.orElse {rule rule' : Reading α} {other other' : Reading β} (h : Agree rel rule other)
    (h' : Misses rule → Agree rel rule' other') :
    Agree rel (rule <|> rule') (other <|> other') := by
  intro memory memory'
  have hfirst := h memory memory'
  rw [OptionT.run_orElse, OptionT.run_orElse]
  change Option.Rel rel
    (((rule.run.run memory).1.elim rule'.run fun a => pure (some a)).run
      (rule.run.run memory).2).1
    (((other.run.run memory').1.elim other'.run fun b => pure (some b)).run
      (other.run.run memory').2).1
  cases hrule : (rule.run.run memory).1 with
  | none =>
    rw [hrule] at hfirst
    cases hother : (other.run.run memory').1 with
    | none => exact h' ⟨memory, hrule⟩ _ _
    | some b =>
      rw [hother] at hfirst
      cases hfirst
  | some a =>
    rw [hrule] at hfirst
    cases hother : (other.run.run memory').1 with
    | none =>
      rw [hother] at hfirst
      cases hfirst
    | some b =>
      rw [hother] at hfirst
      exact hfirst

theorem agree_ite {p : Prop} [Decidable p] {rule rule' : Reading α} {other other' : Reading β}
    (h : p → Agree rel rule other) (h' : ¬ p → Agree rel rule' other') :
    Agree rel (if p then rule else rule') (if p then other else other') := by
  split
  · exact h (by assumption)
  · exact h' (by assumption)

theorem Agree.or {rule : Reading α} {other : Reading β} {p : Option α → Option β → Prop}
    (h : Agree rel rule other) :
    Relates (fun outcome outcome' => Option.Rel rel outcome outcome' ∨ p outcome outcome')
      rule.run other.run :=
  fun memory memory' => Or.inl (h memory memory')

/-- What the first rule ensures may be used of the results. -/
theorem Agree.and {rule : Reading α} {other : Reading β} {p : α → Prop} (h : Agree rel rule other)
    (hp : Ensures rule p) : Agree (fun a b => rel a b ∧ p a) rule other := by
  intro memory memory'
  have hrel := h memory memory'
  have hholds := hp memory
  generalize (rule.run.run memory).1 = outcome at hrel hholds ⊢
  generalize (other.run.run memory').1 = outcome' at hrel ⊢
  cases hrel with
  | none => exact .none
  | some hab => exact .some ⟨hab, hholds _ rfl⟩

end Judgements

/-! ## Lengths before a delimiter -/

section Lengths

variable (delimiter : MathDelimiter) (cs : List Char)

theorem head_closing {c : Char} (h : c ∈ delimiter.closing.head?) : c = '\\' ∨ c = '$' := by
  have hhead : delimiter.closing.head? = some '\\' ∨ delimiter.closing.head? = some '$' := by
    cases delimiter <;> simp [MathDelimiter.closing]
  rcases hhead with hhead | hhead
  · rw [hhead] at h
    exact Or.inl (Option.some.inj h).symm
  · rw [hhead] at h
    exact Or.inr (Option.some.inj h).symm

theorem runLength_closing {p : Char → Bool} (hb : p '\\' = false) (hd : p '$' = false) :
    runLength p (cs ++ delimiter.closing) = runLength p cs := by
  apply runLength_append
  intro c hc
  rcases head_closing delimiter hc with rfl | rfl
  · exact hb
  · exact hd

theorem takeWhile_closing {p : Char → Bool} (hb : p '\\' = false) (hd : p '$' = false) :
    (cs ++ delimiter.closing).takeWhile p = cs.takeWhile p := by
  rw [← take_runLength, runLength_closing delimiter cs hb hd,
    List.take_append_of_le_length (runLength_le p cs), take_runLength]

theorem blankLength_closing : blankLength (cs ++ delimiter.closing) = blankLength cs :=
  runLength_closing delimiter cs (by decide) (by decide)

theorem isBlank_head_closing : ∀ c ∈ delimiter.closing.head?, isBlank c = false := by
  intro c hc
  rcases head_closing delimiter hc with rfl | rfl <;> decide

theorem spaceLength_closing : spaceLength (cs ++ delimiter.closing) = spaceLength cs :=
  spaceLength_append cs (isBlank_head_closing delimiter)

theorem lineEndingLength_closing :
    lineEndingLength (cs ++ delimiter.closing) = lineEndingLength cs :=
  lineEndingLength_append_of_head cs (isBlank_head_closing delimiter)

theorem whitespaceLength_closing :
    whitespaceLength (cs ++ delimiter.closing) = whitespaceLength cs :=
  whitespaceLength_append_of_head cs (isBlank_head_closing delimiter)

theorem parbreakLength_closing :
    parbreakLength (cs ++ delimiter.closing) = parbreakLength cs := by
  simp only [parbreakLength, blankLength_closing,
    takeWhile_closing delimiter cs (p := isBlank) (by decide) (by decide)]

theorem parbreakLength_le : parbreakLength cs ≤ cs.length := by
  unfold parbreakLength
  split
  · exact runLength_le _ cs
  · omega

theorem numberLength_closing : numberLength (cs ++ delimiter.closing) = numberLength cs := by
  apply numberLength_append
  intro c hc
  rcases head_closing delimiter hc with rfl | rfl <;> decide

variable {cs}

theorem commandNameLength_closing (hne : cs ≠ []) :
    commandNameLength (cs ++ delimiter.closing) = commandNameLength cs := by
  obtain ⟨c, more, rfl⟩ := List.exists_cons_of_ne_nil hne
  have hrun := runLength_closing delimiter (c :: more) (p := isLetter) (by decide) (by decide)
  rw [List.cons_append] at hrun ⊢
  rw [commandNameLength, commandNameLength, hrun]

theorem commandNameLength_le (cs : List Char) : commandNameLength cs ≤ cs.length := by
  unfold commandNameLength
  split
  · omega
  · split
    · exact runLength_le _ _
    · simp

variable {delimiter}

theorem mem_closing {c : Char} (h : c ∈ delimiter.closing) :
    c ≠ '{' ∧ c ≠ '}' ∧ isLineBreak c = false := by
  cases delimiter <;> simp only [MathDelimiter.closing, List.mem_cons, List.not_mem_nil] at h <;>
    rcases h with rfl | rfl | h <;> simp_all <;> decide

/-- What ends in a brace does not reach into a delimiter. -/
theorem prefix_closing_of_brace {literal : List Char}
    (h : literal ++ ['}'] <+: cs ++ delimiter.closing) : literal ++ ['}'] <+: cs := by
  rcases Nat.le_total (literal ++ ['}']).length cs.length with hle | hle
  · exact List.prefix_of_prefix_length_le h (List.prefix_append _ _) hle
  · obtain ⟨tail, htail⟩ := List.prefix_of_prefix_length_le (List.prefix_append _ _) h hle
    rw [← htail, List.prefix_append_right_inj] at h
    rcases List.eq_nil_or_concat tail with rfl | ⟨front, d, rfl⟩
    · rw [← htail, List.append_nil]
    · have hd : d = '}' := by
        rw [List.concat_eq_append, ← List.append_assoc] at htail
        exact (List.append_inj_right' htail rfl |> List.cons.inj).1
      have hmem : d ∈ delimiter.closing := h.subset (by simp)
      exact absurd hd (mem_closing hmem).2.1

/-- What has neither a backslash nor a dollar but at its head does not reach into a
delimiter. -/
theorem prefix_closing_of_tail {c : Char} {literal : List Char} (hne : cs ≠ [])
    (hl : '\\' ∉ literal ∧ '$' ∉ literal) (h : c :: literal <+: cs ++ delimiter.closing) :
    c :: literal <+: cs := by
  obtain ⟨d, more, rfl⟩ := List.exists_cons_of_ne_nil hne
  rw [List.cons_append, List.cons_prefix_cons] at h
  rw [List.cons_prefix_cons]
  refine ⟨h.1, ?_⟩
  rcases Nat.le_total literal.length more.length with hle | hle
  · exact List.prefix_of_prefix_length_le h.2 (List.prefix_append _ _) hle
  · obtain ⟨tail, rfl⟩ := List.prefix_of_prefix_length_le (List.prefix_append _ _) h.2 hle
    have htail := h.2
    rw [List.prefix_append_right_inj] at htail
    cases tail with
    | nil => simp
    | cons t tail =>
      obtain ⟨rest, hrest⟩ := htail
      rcases head_closing delimiter (c := t) (by simp [← hrest]) with rfl | rfl
      · simp at hl
      · simp at hl

/-- What is longer than a delimiter and has neither a backslash nor a dollar but at
its head does not lie across its start. -/
theorem infix_closing_of_tail {c : Char} {literal : List Char} (hlength : 2 ≤ literal.length)
    (hl : '\\' ∉ literal ∧ '$' ∉ literal) (h : c :: literal <:+: cs ++ delimiter.closing) :
    c :: literal <:+: cs := by
  induction cs with
  | nil =>
    exfalso
    have hle := h.length_le
    have hclosing : delimiter.closing.length ≤ 2 := by cases delimiter <;> decide
    simp only [List.nil_append, List.length_cons] at hle
    omega
  | cons d cs ih =>
    rw [List.cons_append, List.infix_cons_iff] at h
    rcases h with h | h
    · exact (prefix_closing_of_tail (List.cons_ne_nil d cs) hl h).isInfix
    · exact (ih h).trans (List.suffix_cons d cs).isInfix

theorem isPrefixOf_closing_of_brace (literal cs : List Char) :
    (literal ++ ['}']).isPrefixOf (cs ++ delimiter.closing)
      = (literal ++ ['}']).isPrefixOf cs := by
  rw [Bool.eq_iff_iff, List.isPrefixOf_iff_prefix, List.isPrefixOf_iff_prefix]
  exact ⟨prefix_closing_of_brace, fun h => h.trans (List.prefix_append _ _)⟩

theorem isPrefixOf_closing_of_tail {c : Char} {literal : List Char} (hne : cs ≠ [])
    (hl : '\\' ∉ literal ∧ '$' ∉ literal) :
    (c :: literal).isPrefixOf (cs ++ delimiter.closing) = (c :: literal).isPrefixOf cs := by
  rw [Bool.eq_iff_iff, List.isPrefixOf_iff_prefix, List.isPrefixOf_iff_prefix]
  exact ⟨prefix_closing_of_tail hne hl, fun h => h.trans (List.prefix_append _ _)⟩

theorem distanceTo_closing {literal : List Char} (cs : List Char) :
    distanceTo? (literal ++ ['}']) (cs ++ delimiter.closing)
      = distanceTo? (literal ++ ['}']) cs := by
  induction cs with
  | nil =>
    have hnone : distanceTo? (literal ++ ['}']) delimiter.closing = none := by
      cases hdistance : distanceTo? (literal ++ ['}']) delimiter.closing with
      | none => rfl
      | some n =>
        obtain ⟨content, rest, hsplit, -, -⟩ := distanceTo_eq_some (by simp) hdistance
        have hmem : '}' ∈ delimiter.closing := by simp [hsplit]
        exact absurd rfl (mem_closing hmem).2.1
    simp [hnone, distanceTo?]
  | cons c cs ih =>
    have hstarts : (literal ++ ['}']).isPrefixOf (c :: (cs ++ delimiter.closing))
        = (literal ++ ['}']).isPrefixOf (c :: cs) := isPrefixOf_closing_of_brace literal (c :: cs)
    rw [List.cons_append, distanceTo?, distanceTo?, hstarts, ih]

theorem literalDistance_closing (name cs : List Char) :
    literalDistance? name (cs ++ delimiter.closing) = literalDistance? name cs := by
  unfold literalDistance?
  have hstarts : (beginTag name).isPrefixOf (cs ++ delimiter.closing)
      = (beginTag name).isPrefixOf cs := isPrefixOf_closing_of_brace _ cs
  rw [hstarts]
  split
  · next h =>
    rw [List.drop_append_of_le_length (List.isPrefixOf_iff_prefix.1 h).length_le]
    exact distanceTo_closing _
  · rfl

/-- A literal environment ends inside the text that it was found in. -/
theorem taggedLength_le {name : List Char} {distance : Nat}
    (h : literalDistance? name cs = some distance) : taggedLength name distance ≤ cs.length := by
  unfold literalDistance? at h
  split at h
  · next hstarts =>
    have hle := (List.isPrefixOf_iff_prefix.1 hstarts).length_le
    obtain ⟨content, rest, hsplit, rfl, -⟩ := distanceTo_eq_some (by simp [endTag]) h
    have hlength := congrArg List.length hsplit
    simp only [List.length_drop, List.length_append] at hlength
    unfold taggedLength
    omega
  · cases h

/-- A comment that ends before the delimiter is the same without it. -/
theorem comment_closing (h : runLength (!isLineBreak ·) (cs ++ delimiter.closing) ≤ cs.length)
    (other : MathDelimiter) :
    (cs ++ other.closing).takeWhile (!isLineBreak ·) = cs.takeWhile (!isLineBreak ·) := by
  have hnot : (cs.takeWhile (!isLineBreak ·)).length ≠ cs.length := by
    intro hall
    rw [runLength, List.takeWhile_append, if_pos hall, List.length_append] at h
    have hpos : 0 < (delimiter.closing.takeWhile (!isLineBreak ·)).length := by
      cases delimiter <;> decide
    omega
  rw [List.takeWhile_append, if_neg hnot]

end Lengths

end LatexFormatter
