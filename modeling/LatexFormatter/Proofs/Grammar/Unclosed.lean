import LatexFormatter.Proofs.Grammar.Lexemes
import LatexFormatter.Proofs.Grammar.Reports

/-
  Environments that are not closed where they should be. Where a report says that the
  end of an environment was expected, that environment was opened in the text, and
  the sequence inside it stopped there without its end: at the end of the text, or
  before something that no token can begin with (`Halts`).

  Only the furthest place is reported. So a rule that fails has nothing to answer for
  if it came further than where it started: what it noted there hides whatever the
  rules around it note at its start. `Tells` says of a rule that it either went
  further before it failed or has an excuse, and that everything it adds to a
  report is in order.
-/

namespace LatexFormatter

open SyntaxError (isEndTag)

/-! ## Reports about environments -/

/-- The text goes on with the command that closes environments. -/
def StartsEnd (cs : List Char) : Prop :=
  ∃ more, cs = ['\\', 'e', 'n', 'd'] ++ more ∧ ∀ c ∈ more.head?, isLetter c = false

/-- No token of text, or of math, begins here. -/
def Halts (math : Bool) (cs : List Char) : Prop :=
  cs.head? = some '}' ∨ (math = true ∧ cs.head? = some '$') ∨ StartsEnd cs

/-- The environment was opened in the text and is not closed at this place, where its
body ends nevertheless. -/
structure Unclosed (source name : List Char) (here : Cursor) : Prop where
  within : here.Within source
  opened : beginTag name <:+: source
  unseen : here.sees (endTag name) = false
  halts : here.rest = [] ∨ Halts (isMathEnvironment (String.ofList name)) here.rest

/-- What is expected there is the end of an environment that is not closed. -/
def Missing (source : List Char) (offset : Nat) (what : String) : Prop :=
  ∃ name here, Unclosed source name here ∧ here.offset = offset ∧
    what = String.ofList (Text.quotedChars (endTag name))

/-- Where the report says that the end of an environment is expected, it is. -/
def Memory.Warranted (source : List Char) (memory : Memory) : Prop :=
  ∀ what ∈ memory.expected, isEndTag what = true → Missing source memory.furthest what

namespace Memory

theorem le_furthest_expect (memory : Memory) (offset : Nat) (what : String) :
    memory.furthest ≤ (memory.expect offset what).furthest ∧
      offset ≤ (memory.expect offset what).furthest := by
  unfold expect
  split
  · exact ⟨by simp only; omega, Nat.le_refl _⟩
  · split
    · exact ⟨Nat.le_refl _, by simp only; omega⟩
    · exact ⟨Nat.le_refl _, by omega⟩

/-- A note has to be in order only if it is not nearer than the others. -/
theorem Warranted.expect {source : List Char} {memory : Memory} {offset : Nat} {what : String}
    (h : memory.Warranted source)
    (hnote : isEndTag what = true → memory.furthest ≤ offset → Missing source offset what) :
    (memory.expect offset what).Warranted source := by
  intro other hother htag
  obtain ⟨hmemory, hoffset⟩ := le_furthest_expect memory offset what
  rcases mem_expected_expect hother with ⟨heq, rfl⟩ | ⟨heq, hmem⟩
  · rw [← heq]
    exact hnote htag (by omega)
  · rw [← heq]
    exact h other hmem htag

end Memory

/-! ## What a reading does to the report -/

/-- Started with a report in order that reaches as far as `pre` says, the reading
leaves one in order that reaches at least as far, and as far as `post` says of the
result. -/
def Upholds {α : Type} (source : List Char) (pre : Nat → Prop) (reading : StateM Memory α)
    (post : α → Nat → Prop) : Prop :=
  ∀ memory, memory.Warranted source → pre memory.furthest →
    (reading.run memory).2.Warranted source ∧
      memory.furthest ≤ (reading.run memory).2.furthest ∧
      post (reading.run memory).1 (reading.run memory).2.furthest

/-- The rule keeps reports in order, and fails only if it came further than its start
or has an excuse. -/
def Tells {α : Type} (source : List Char) (here : Cursor) (excuse : Prop) (rule : Reading α) :
    Prop :=
  Upholds source (fun _ => True) rule.run fun outcome furthest =>
    outcome = none → here.offset < furthest ∨ excuse

section Calculus

variable {α β : Type} {source : List Char} {here there : Cursor} {excuse : Prop}

theorem upholds_pure {pre : Nat → Prop} {post : α → Nat → Prop} {a : α}
    (h : ∀ furthest, pre furthest → post a furthest) : Upholds source pre (pure a) post :=
  fun memory hmemory hpre => ⟨hmemory, Nat.le_refl _, h memory.furthest hpre⟩

theorem Upholds.mono {pre pre' : Nat → Prop} {post post' : α → Nat → Prop}
    {reading : StateM Memory α} (h : Upholds source pre reading post)
    (hpre : ∀ furthest, pre' furthest → pre furthest)
    (hpost : ∀ a furthest, post a furthest → post' a furthest) :
    Upholds source pre' reading post' := by
  intro memory hmemory hfrom
  obtain ⟨hwarranted, hle, hafter⟩ := h memory hmemory (hpre _ hfrom)
  exact ⟨hwarranted, hle, hpost _ _ hafter⟩

theorem Upholds.bind {pre : Nat → Prop} {mid : α → Nat → Prop} {post : β → Nat → Prop}
    {reading : StateM Memory α} {rest : α → StateM Memory β} (h : Upholds source pre reading mid)
    (hrest : ∀ a, Upholds source (mid a) (rest a) post) :
    Upholds source pre (reading >>= rest) post := by
  intro memory hmemory hpre
  obtain ⟨hwarranted, hle, hmid⟩ := h memory hmemory hpre
  obtain ⟨hwarranted', hle', hpost⟩ := hrest _ _ hwarranted hmid
  rw [StateT.run_bind]
  exact ⟨hwarranted', Nat.le_trans hle hle', hpost⟩

theorem Upholds.and_yields {pre : Nat → Prop} {post : α → Nat → Prop} {holds : α → Prop}
    {reading : StateM Memory α} (h : Upholds source pre reading post)
    (hyields : Yields reading holds) :
    Upholds source pre reading fun a furthest => post a furthest ∧ holds a := by
  intro memory hmemory hpre
  obtain ⟨hwarranted, hle, hpost⟩ := h memory hmemory hpre
  exact ⟨hwarranted, hle, hpost, hyields memory⟩

/-- Failing with a note leaves a report that reaches the place of the note. -/
theorem upholds_fail {pre : Nat → Prop} {offset : Nat} {what : String}
    (h : ∀ furthest, pre furthest → furthest ≤ offset → isEndTag what = true →
      Missing source offset what) :
    Upholds source pre (Reading.fail offset what : Reading α).run
      fun outcome furthest => outcome = none ∧ offset ≤ furthest := by
  intro memory hmemory hpre
  obtain ⟨hle, hoffset⟩ := memory.le_furthest_expect offset what
  exact ⟨hmemory.expect fun htag hnear => h _ hpre hnear htag, hle, rfl, hoffset⟩

theorem upholds_fail_bind {pre : Nat → Prop} {offset : Nat} {what : String}
    {rest : α → Reading β}
    (h : ∀ furthest, pre furthest → furthest ≤ offset → isEndTag what = true →
      Missing source offset what) :
    Upholds source pre (Reading.fail offset what >>= rest).run
      fun outcome furthest => outcome = none ∧ offset ≤ furthest :=
  fun memory hmemory hpre => upholds_fail h memory hmemory hpre

/-- What follows a reading that cannot fail is told how it went. -/
theorem Upholds.lift_bind {mid : α → Nat → Prop} {reading : StateM Memory α}
    {holds : α → Prop} {rest : α → Reading β} (h : Upholds source (fun _ => True) reading mid)
    (hyields : Yields reading holds)
    (hrest : ∀ a, holds a → Upholds source (mid a) (rest a).run fun outcome furthest =>
      outcome = none → here.offset < furthest ∨ excuse) :
    Tells source here excuse ((liftM reading : Reading α) >>= rest) := by
  intro memory hmemory hpre
  obtain ⟨hwarranted, hle, hmid⟩ := h memory hmemory hpre
  obtain ⟨hwarranted', hle', hpost⟩ := hrest _ (hyields memory) _ hwarranted hmid
  exact ⟨hwarranted', Nat.le_trans hle hle', hpost⟩

theorem Tells.mono {excuse' : Prop} {rule : Reading α} (h : Tells source here excuse rule)
    (hexcuse : excuse → excuse') : Tells source here excuse' rule :=
  Upholds.mono h (fun _ h => h) fun _ _ hpost hnone => (hpost hnone).imp_right hexcuse

/-- Who came further than a later place came further than an earlier one. -/
theorem Tells.earlier {rule : Reading α} (h : Tells source there excuse rule)
    (hle : here.offset ≤ there.offset) : Tells source here excuse rule :=
  Upholds.mono h (fun _ h => h) fun _ _ hpost hnone =>
    (hpost hnone).imp_left fun hlt => Nat.lt_of_le_of_lt hle hlt

theorem tells_pure {a : α} : Tells source here excuse (pure a : Reading α) :=
  upholds_pure fun _ _ hnone => by cases hnone

theorem tells_failure (h : excuse) : Tells source here excuse (failure : Reading α) :=
  upholds_pure fun _ _ _ => Or.inr h

theorem tells_failure_bind {rest : α → Reading β} (h : excuse) :
    Tells source here excuse (failure >>= rest) :=
  fun memory hmemory hpre => (tells_failure h : Tells source here excuse (failure : Reading β))
    memory hmemory hpre

theorem tells_ofOption {value : Option α} (h : value = none → excuse) :
    Tells source here excuse (Reading.ofOption value) :=
  upholds_pure fun _ _ hnone => Or.inr (h hnone)

theorem tells_fail {offset : Nat} {what : String} (hwhat : isEndTag what = false)
    (h : here.offset < offset ∨ excuse) :
    Tells source here excuse (Reading.fail offset what : Reading α) := by
  refine (upholds_fail ?_).mono (fun _ h => h) ?_
  · intro _ _ _ htag
    rw [hwhat] at htag
    cases htag
  · rintro outcome furthest ⟨-, hle⟩ -
    exact h.imp_left fun hlt => Nat.lt_of_lt_of_le hlt hle

theorem tells_fail_bind {offset : Nat} {what : String} {rest : α → Reading β}
    (hwhat : isEndTag what = false) (h : here.offset < offset ∨ excuse) :
    Tells source here excuse (Reading.fail offset what >>= rest) :=
  fun memory hmemory hpre =>
    (tells_fail hwhat h : Tells source here excuse (Reading.fail offset what : Reading β))
      memory hmemory hpre

theorem Tells.bind {rule : Reading α} {rest : α → Reading β} {holds : α → Prop}
    (h : Tells source here excuse rule) (hensures : Ensures rule holds)
    (hrest : ∀ a, holds a → Tells source here excuse (rest a)) :
    Tells source here excuse (rule >>= rest) := by
  unfold Tells
  simp only [OptionT.run_bind, Option.elimM]
  refine (Upholds.and_yields h hensures).bind ?_
  intro outcome
  cases outcome with
  | none => exact upholds_pure fun _ hmid _ => hmid.1 rfl
  | some a =>
    intro memory hmemory hmid
    exact hrest a (hmid.2 a rfl) memory hmemory trivial

theorem ensures_true (rule : Reading α) : Ensures rule fun _ => True := fun _ _ _ => trivial

theorem Tells.map {rule : Reading α} (f : α → β) (h : Tells source here excuse rule) :
    Tells source here excuse (f <$> rule) :=
  h.bind (ensures_true rule) fun _ _ => tells_pure

/-- An ordered choice needs an excuse for every alternative. -/
theorem Tells.orElse {excuse' : Prop} {rule other : Reading α} (h : Tells source here excuse rule)
    (hother : Tells source here excuse' other) :
    Tells source here (excuse ∧ excuse') (rule <|> other) := by
  unfold Tells
  rw [OptionT.run_orElse]
  refine Upholds.bind h ?_
  intro outcome
  cases outcome with
  | some a => exact upholds_pure fun _ _ hnone => by cases hnone
  | none =>
    intro memory hmemory hmid
    obtain ⟨hwarranted, hle, hpost⟩ := hother memory hmemory trivial
    refine ⟨hwarranted, hle, fun hnone => ?_⟩
    -- what the first alternative noted further on is still there
    rcases hmid rfl with hlt | hexcuse
    · exact Or.inl (Nat.lt_of_lt_of_le hlt hle)
    · exact (hpost hnone).imp_right fun hexcuse' => ⟨hexcuse, hexcuse'⟩

theorem tells_ite {c : Prop} [Decidable c] {rule other : Reading α}
    (h : c → Tells source here excuse rule) (hother : ¬ c → Tells source here excuse other) :
    Tells source here excuse (if c then rule else other) := by
  split
  · exact h (by assumption)
  · exact hother (by assumption)

end Calculus

/-! ## Where rules get to -/

section Rules

variable {α : Type} {source : List Char} {here there : Cursor} {n : Nat}

theorem Settles.yields {depth : Nat} {holds : α → Prop} {rule : Ahead → StateM Memory α}
    (h : Settles source depth holds rule) (hn : depth ≤ n) :
    Yields (rule (Ahead.within Retrieval.fresh n)) holds := by
  obtain ⟨result, notes, hholds, hamounts⟩ := h
  intro memory
  rw [hamounts.memoryFree n hn memory]
  exact hholds

theorem Cursor.Within.offset_le (hh : here.Within source) (ht : there.Within source)
    (hle : there.rest.length ≤ here.rest.length) : here.offset ≤ there.offset := by
  obtain ⟨taken, -, hoffset⟩ := hh.exists_taken ht hle
  omega

/-- What is seen at a place is part of the text. -/
theorem Cursor.Within.infix_of_sees {cs : List Char} (hh : here.Within source)
    (h : here.sees cs = true) : cs <:+: source := by
  obtain ⟨n, rfl⟩ := hh
  exact (List.isPrefixOf_iff_prefix.1 h).isInfix.trans (List.drop_suffix n source).isInfix

/-- A sequence stops at a place that is not before its start. -/
theorem yields_sequence_onward (ht : there.Within source) (hn : there.rest.length < n) (mode : Mode)
    (stop : Option (List Char)) :
    Yields ((Ahead.within Retrieval.fresh n).sequence mode stop there) fun found =>
      found.1.Within source ∧ there.offset ≤ found.1.offset := by
  have hsettles := settles_sequence grows_true (lookahead grows_true ht.length_le) ht
    (Nat.le_refl _) mode stop
  intro memory
  obtain ⟨hwithin, hle, -⟩ :=
    (hsettles.sequence ht (Nat.le_refl _)).yields (Nat.succ_le_of_lt hn) memory
  exact ⟨hwithin, ht.offset_le hwithin hle⟩

theorem ensures_token_onward (hh : here.Within source) (hn : here.rest.length ≤ n) (mode : Mode) :
    Ensures (token (Ahead.within Retrieval.fresh n) mode here) fun found =>
      found.1.Within source ∧ found.1.rest.length < here.rest.length := by
  have hreads := reads_token grows_true (lookahead grows_true hh.length_le) hh (Nat.le_refl _) mode
  intro memory found hfound
  obtain ⟨hwithin, hlt, -⟩ := Settles.yields hreads hn memory found hfound
  exact ⟨hwithin, hlt⟩

theorem ensures_optionalArguments_onward (hh : here.Within source) (hn : here.rest.length ≤ n) :
    Ensures (optionalArguments (Ahead.within Retrieval.fresh n) here) fun found =>
      found.1.Within source ∧ found.1.rest.length ≤ here.rest.length := by
  have hreads := reads_optionalArguments (lookahead grows_true hh.length_le) hh (Nat.le_refl _)
  intro memory found hfound
  obtain ⟨hwithin, hle, -⟩ := Settles.yields hreads hn memory found hfound
  exact ⟨hwithin, hle⟩

/-! ## Rules for nested material -/

/-- How a sequence stops: at the end of the text, before what closes it, at a place
that the report has passed already, or where no token begins. In an argument list
the last does not matter. -/
def Stops (mode : Mode) (stop : Option (List Char)) (result : Cursor × List ParseTree)
    (furthest : Nat) : Prop :=
  result.1.rest = [] ∨ stopsAt stop result.1 = true ∨ result.1.offset < furthest ∨
    mode = .arguments ∨ Halts (mode == .math) result.1.rest

/-- What is read at places less than `n` characters before the end of the text keeps
reports in order. -/
structure Tracks (source : List Char) (n : Nat) : Prop where
  sequence : ∀ mode stop there, there.Within source → there.rest.length < n →
    Upholds source (fun _ => True) ((Ahead.within Retrieval.fresh n).sequence mode stop there)
      (Stops mode stop)
  token : ∀ mode there, there.Within source → there.rest.length < n →
    Tells source there True ((Ahead.within Retrieval.fresh n).token mode there)

/-- The characters close a sequence: if they are the end of an environment, it is one
that was opened in the text, and the sequence is read as its body is. -/
def ClosesBody (source : List Char) (mode : Mode) (closing : List Char) : Prop :=
  isEndTag (String.ofList (Text.quotedChars closing)) = true →
    ∃ name, closing = endTag name ∧ beginTag name <:+: source ∧
      (mode = .text ∨ (mode = .math ∧ isMathEnvironment (String.ofList name) = true))

/-- The end of a body is missed where the body stops without it. -/
theorem ClosesBody.missing {mode : Mode} {closing : List Char} {stop : Cursor}
    {items : List ParseTree} {furthest : Nat} (h : ClosesBody source mode closing)
    (htag : isEndTag (String.ofList (Text.quotedChars closing)) = true)
    (hw : stop.Within source) (hsees : ¬ stop.sees closing = true)
    (hstops : Stops mode (some closing) (stop, items) furthest) (hle : furthest ≤ stop.offset) :
    Missing source stop.offset (String.ofList (Text.quotedChars closing)) := by
  obtain ⟨name, rfl, hopened, hmode⟩ := h htag
  refine ⟨name, stop, ⟨hw, hopened, by simpa using hsees, ?_⟩, rfl, rfl⟩
  rcases hstops with hend | hstop | hlt | rfl | hhalts
  · exact Or.inl hend
  · exact absurd hstop hsees
  · dsimp only at hlt
    omega
  · rcases hmode with hmode | ⟨hmode, -⟩ <;> cases hmode
  · rcases hmode with rfl | ⟨rfl, hmath⟩
    · -- what ends text ends math, too
      refine Or.inr (hhalts.imp_right fun hhalts => hhalts.imp_left fun hdollar => ?_)
      cases hdollar.1
    · rw [hmath]
      exact Or.inr hhalts

/-- A sequence and what closes it, inside a rule that started before. -/
theorem Tracks.enclosed (hl : Tracks source n) {mode : Mode} {closing : List Char}
    (hclosing : ClosesBody source mode closing) (build : List ParseTree → ParseTree)
    (ht : there.Within source) (hn : there.rest.length < n) (hlt : here.offset < there.offset) :
    Tells source here False (do
      let (stop, items) ← (Ahead.within Retrieval.fresh n).sequence mode (some closing) there
      let next ← Reading.literal closing stop
      return (next, build items)) := by
  refine (hl.sequence mode (some closing) there ht hn).lift_bind
    (yields_sequence_onward ht hn mode (some closing)) ?_
  rintro ⟨stop, items⟩ ⟨hwithin, hoffset⟩
  dsimp only at hwithin hoffset
  dsimp only [Reading.literal]
  split
  · exact upholds_pure fun _ _ hnone => by cases hnone
  · next hsees =>
    refine Upholds.mono (upholds_fail_bind ?_) (fun _ h => h) ?_
    · intro furthest hstops hle htag
      exact hclosing.missing htag hwithin hsees hstops hle
    · rintro outcome furthest ⟨-, hle⟩ -
      exact Or.inl (by omega)

theorem offset_skip_lt {k : Nat} (hh : here.Within source) (hk : 0 < k)
    (hpos : 0 < here.rest.length) : here.offset < (here.skip k).offset := by
  apply hh.offset_lt (hh.skip k)
  rw [Cursor.length_skip]
  omega

theorem tells_group (hl : Tracks source n) (hh : here.Within source)
    (hn : here.rest.length ≤ n) :
    Tells source here (here.peek ≠ some '{') (group (Ahead.within Retrieval.fresh n) here) := by
  unfold group
  refine tells_ite (fun hpeek => tells_failure (by simpa using hpeek)) fun hpeek => ?_
  have hpos := Cursor.length_pos_of_peek (by simpa using hpeek)
  have hlength : (here.skip 1).rest.length < n := by
    rw [Cursor.length_skip]
    omega
  rw [Ahead.retrieve_within]
  have hclosing : ClosesBody source .text ['}'] := fun htag => by cases htag
  exact (hl.enclosed hclosing (.enclosing .group) (hh.skip 1) hlength
    (offset_skip_lt hh Nat.one_pos hpos)).mono False.elim

theorem tells_delimitedMath (hl : Tracks source n) (hh : here.Within source)
    (hn : here.rest.length ≤ n) (delimiter : MathDelimiter) :
    Tells source here (here.sees delimiter.opening = false)
      (delimitedMath (Ahead.within Retrieval.fresh n) delimiter here) := by
  unfold delimitedMath
  refine tells_ite (fun hsees => tells_failure (by simpa using hsees)) fun hsees => ?_
  have hopening := Cursor.length_le_of_sees (by simpa using hsees)
  have hpos : 0 < delimiter.opening.length := by cases delimiter <;> decide
  have hlength : (here.skip delimiter.opening.length).rest.length < n := by
    rw [Cursor.length_skip]
    omega
  rw [Ahead.retrieve_within]
  have hclosing : ClosesBody source .math delimiter.closing := by
    intro htag
    cases delimiter <;> cases htag
  exact (hl.enclosed hclosing (.enclosing delimiter.kind) (hh.skip _) hlength
    (offset_skip_lt hh hpos (by omega))).mono False.elim

theorem tells_argumentList (hl : Tracks source n) (hh : here.Within source)
    (hn : here.rest.length ≤ n) :
    Tells source here True (argumentList (Ahead.within Retrieval.fresh n) here) := by
  unfold argumentList
  dsimp only
  generalize hthere : here.skip (whitespaceLength here.rest) = there
  have hwithin : there.Within source := hthere ▸ hh.skip _
  have hle : there.rest.length ≤ here.rest.length := by
    rw [← hthere, Cursor.length_skip]
    omega
  refine tells_ite (fun _ => tells_failure trivial) fun hpeek => ?_
  have hpos := Cursor.length_pos_of_peek (by simpa using hpeek)
  have hlength : (there.skip 1).rest.length < n := by
    rw [Cursor.length_skip]
    omega
  have hfurther : here.offset < (there.skip 1).offset := by
    apply hh.offset_lt (hwithin.skip 1)
    rw [Cursor.length_skip]
    omega
  rw [Ahead.retrieve_within]
  have hclosing : ClosesBody source .arguments [']'] := fun htag => by cases htag
  exact (hl.enclosed hclosing (.enclosing .arguments) (hwithin.skip 1) hlength
    hfurther).mono False.elim

/-- Arguments that are not there are no failure. -/
theorem tells_optionalArguments (hl : Tracks source n) (hh : here.Within source)
    (hn : here.rest.length ≤ n) :
    Tells source here False (optionalArguments (Ahead.within Retrieval.fresh n) here) :=
  (((tells_argumentList hl hh hn).map _).orElse tells_pure).mono And.right

/-! ## Commands and environments -/

/-- The name of the command that a backslash before the text begins. -/
def commandName (cs : List Char) : List Char := cs.take (commandNameLength cs)

/-- Only the commands that open and close environments are passed over silently. -/
theorem tells_command (hl : Tracks source n) (hh : here.Within source)
    (hn : here.rest.length ≤ n) :
    Tells source here (∀ more, here.rest = '\\' :: more →
        commandName more = ['b', 'e', 'g', 'i', 'n'] ∨ commandName more = ['e', 'n', 'd'])
      (command (Ahead.within Retrieval.fresh n) here) := by
  unfold command
  refine tells_ite (fun hpeek => tells_failure ?_) fun hpeek => ?_
  · intro more hmore
    simp [Cursor.peek, hmore] at hpeek
  · obtain ⟨more, hmore⟩ := Cursor.rest_ne_nil_of_peek (by simpa using hpeek)
    have hstart : (here.skip 1).rest = more := by simp [hmore]
    have hpos : 0 < here.rest.length := by simp [hmore]
    dsimp only
    rw [hstart]
    refine tells_ite (fun _ => ?_) fun _ => tells_ite (fun hname => ?_) fun _ => ?_
    · exact tells_fail_bind (by decide) (Or.inl (offset_skip_lt hh Nat.one_pos hpos))
    · apply tells_failure_bind
      intro more' hmore'
      obtain rfl : more = more' := by simpa [hmore] using hmore'
      rw [Bool.or_eq_true, beq_iff_eq, beq_iff_eq] at hname
      exact hname.imp (fun h => by simpa [commandName] using congrArg String.toList h)
        fun h => by simpa [commandName] using congrArg String.toList h
    · have hle : ((here.skip 1).skip (commandNameLength more)).rest.length
          ≤ here.rest.length := by
        rw [Cursor.length_skip, Cursor.length_skip]
        omega
      have harguments := tells_optionalArguments hl ((hh.skip 1).skip (commandNameLength more))
        (Nat.le_trans hle hn)
      have hoffset := hh.offset_le ((hh.skip 1).skip (commandNameLength more)) hle
      exact ((harguments.earlier hoffset).mono False.elim).bind (ensures_true _)
        fun _ _ => tells_pure

/-- Literal environments that are not closed are missed at the end of the text. -/
theorem tells_literalEnvironment (hh : here.Within source) (name : String) (kind : RecordKind) :
    Tells source here (here.sees (beginTag name.toList) = false)
      (literalEnvironment name kind here) := by
  unfold literalEnvironment
  dsimp only
  refine tells_ite (fun hsees => tells_failure (by simpa using hsees)) fun hsees => ?_
  replace hsees : here.sees (beginTag name.toList) = true := by simpa using hsees
  split
  · -- the note is made at the end of the text, where nothing closes anything
    have hend : (here.skip here.rest.length).rest = [] := by simp
    have hpos : 0 < here.rest.length := by
      have hle := Cursor.length_le_of_sees hsees
      simp only [beginTag, List.length_append, List.length_cons] at hle
      omega
    refine Upholds.mono (upholds_fail ?_) (fun _ h => h) ?_
    · intro _ _ _ _
      refine ⟨name.toList, here.skip here.rest.length, ⟨hh.skip _, ?_, ?_, Or.inl hend⟩,
        here.offset_skip_all, rfl⟩
      · exact hh.infix_of_sees hsees
      · simp [Cursor.sees, endTag]
    · rintro outcome furthest ⟨-, hle⟩ -
      have hlt := offset_skip_lt hh hpos hpos
      rw [here.offset_skip_all] at hlt
      exact Or.inl (by omega)
  · exact tells_pure

theorem tells_environmentName (hh : here.Within source) (hbegin : seesBegin here = true) :
    Tells source here False (environmentName here) := by
  have hlength := Cursor.length_le_of_sees hbegin
  simp only [List.length_cons, List.length_nil] at hlength
  -- both braces are looked for further on
  have hliteral : ∀ c k, isEndTag (String.ofList (Text.quotedChars [c])) = false → 0 < k →
      Tells source here False (Reading.literal [c] (here.skip k)) := by
    intro c k hc hk
    have hfurther : here.offset < (here.skip k).offset := offset_skip_lt hh hk (by omega)
    exact tells_ite (fun _ => tells_pure) fun _ => tells_fail hc (Or.inl hfurther)
  have hopened : Ensures (Reading.literal ['{'] (here.skip 6)) fun opened =>
      opened = here.skip 7 := by
    refine ensures_ite (fun _ => ensures_pure ?_) fun _ => ensures_fail _ _
    rw [Cursor.skip_skip]
    rfl
  unfold environmentName
  refine (hliteral '{' 6 (by decide) (by omega)).bind hopened ?_
  rintro opened rfl
  dsimp only
  rw [Cursor.skip_skip]
  exact (hliteral '}' _ (by decide) (by omega)).bind (ensures_true _) fun _ _ => tells_pure

/-- What follows the tag of an environment begins behind it, and is told its name. -/
theorem tells_tagged (hh : here.Within source) (hbegin : seesBegin here = true) {excuse : Prop}
    {rule : Cursor × List Char → Reading Found}
    (hrule : ∀ opened name, beginTag name <:+: source → opened.Within source →
      opened.rest.length < here.rest.length → Tells source here excuse (rule (opened, name))) :
    Tells source here excuse (environmentName here >>= rule) := by
  refine ((tells_environmentName hh hbegin).mono False.elim).bind (ensures_tag hbegin) ?_
  rintro ⟨opened, name⟩ ⟨-, hrest, hopened⟩
  dsimp only at hrest hopened
  have hsees : here.sees (beginTag name) = true :=
    List.isPrefixOf_iff_prefix.2 ⟨opened.rest, hrest.symm⟩
  refine hrule opened name (hh.infix_of_sees hsees) (hopened ▸ hh.skip _) ?_
  simp only [hrest, beginTag, List.length_append, List.length_cons]
  omega

/-- A name that is not one of a math environment is left to the next rule. -/
theorem tells_mathEnvironment (hl : Tracks source n) (hh : here.Within source)
    (hn : here.rest.length ≤ n) :
    Tells source here True (mathEnvironment (Ahead.within Retrieval.fresh n) here) := by
  unfold mathEnvironment
  refine tells_ite (fun _ => tells_failure trivial) fun hbegin => ?_
  rw [Bool.not_eq_true', Bool.not_eq_false] at hbegin
  rw [Ahead.retrieve_within]
  refine tells_tagged hh hbegin ?_
  intro opened name hname hopened hlength
  refine tells_ite (fun _ => tells_failure_bind trivial) fun hmath => ?_
  have hclosing : ClosesBody source .math (endTag name) :=
    fun _ => ⟨name, rfl, hname, Or.inr ⟨rfl, by simpa using hmath⟩⟩
  exact (hl.enclosed hclosing (fun items => .record .mathEnvironment (some (String.ofList name))
    (some (.list items)) none false none) hopened (by omega)
    (hh.offset_lt hopened hlength)).mono False.elim

theorem tells_environment (hl : Tracks source n) (hh : here.Within source)
    (hn : here.rest.length ≤ n) :
    Tells source here (seesBegin here = false)
      (environment (Ahead.within Retrieval.fresh n) here) := by
  unfold environment
  refine tells_ite (fun hbegin => tells_failure (by simpa using hbegin)) fun hbegin => ?_
  rw [Bool.not_eq_true', Bool.not_eq_false] at hbegin
  rw [Ahead.retrieve_within]
  refine tells_tagged hh hbegin ?_
  intro opened name hname hopened hlength
  have harguments := tells_optionalArguments hl hopened (by omega)
  have hoffset := hh.offset_lt hopened hlength
  refine ((harguments.earlier (Nat.le_of_lt hoffset)).mono False.elim).bind
    (ensures_optionalArguments_onward hopened (by omega)) ?_
  rintro ⟨start, args⟩ ⟨hstart, hle⟩
  dsimp only at hstart hle
  have hclosing : ClosesBody source .text (endTag name) :=
    fun _ => ⟨name, rfl, hname, Or.inl rfl⟩
  exact (hl.enclosed hclosing (fun items => .record .environment (some (String.ofList name))
    (some (.list items)) args false none) hstart (by omega)
    (hh.offset_lt hstart (by omega))).mono False.elim

theorem tells_opened (hl : Tracks source n) (hh : here.Within source)
    (hn : here.rest.length ≤ n) :
    Tells source here
      ((here.peek = some '$' → here.sees ['$', '$'] = false) ∧
        (here.peek = some '\\' → seesBegin here = false))
      (opened (Ahead.within Retrieval.fresh n) here) := by
  unfold opened
  split
  · next hpeek =>
    refine (tells_delimitedMath hl hh hn .dollars).mono fun hsees => ⟨fun _ => hsees, ?_⟩
    intro hpeek'
    rw [hpeek] at hpeek'
    cases hpeek'
  · next hpeek =>
    have hverb : Tells source here True (Reading.ofOption (verb? here)) :=
      tells_ofOption fun _ => trivial
    refine (hverb.orElse <| (tells_literalEnvironment hh _ _).orElse <|
      (tells_literalEnvironment hh _ _).orElse <|
      (tells_delimitedMath hl hh hn .brackets).orElse <|
      (tells_delimitedMath hl hh hn .parentheses).orElse <|
      (tells_mathEnvironment hl hh hn).orElse (tells_environment hl hh hn)).mono ?_
    rintro ⟨-, -, -, -, -, -, hbegin⟩
    refine ⟨fun hpeek' => ?_, fun _ => hbegin⟩
    rw [hpeek] at hpeek'
    cases hpeek'
  · next hdollar hbackslash =>
    exact tells_failure ⟨fun hpeek => absurd hpeek hdollar, fun hpeek => absurd hpeek hbackslash⟩

/-! ## Tokens and sequences -/

theorem tells_scriptBase (hl : Tracks source n) (hh : here.Within source)
    (hn : here.rest.length < n) :
    Tells source here True (scriptBase (Ahead.within Retrieval.fresh n) here) := by
  unfold scriptBase
  split
  · exact tells_failure trivial
  · refine tells_ite (fun _ => tells_failure trivial) fun _ =>
      tells_ite (fun _ => ?_) fun _ => hl.token .math here hh hn
    exact (tells_group hl hh (Nat.le_of_lt hn)).mono fun _ => trivial

/-- A mark of a script is always read. -/
theorem tells_script (hl : Tracks source n) (hh : here.Within source)
    (hn : here.rest.length ≤ n) :
    Tells source here (here.peek.bind scriptKind? = none)
      (script (Ahead.within Retrieval.fresh n) here) := by
  unfold script
  split
  · next hkind => exact tells_failure hkind
  · next kind hkind =>
    obtain ⟨c, hpeek, -⟩ := Option.bind_eq_some_iff.1 hkind
    have hpos := Cursor.length_pos_of_peek hpeek
    have hle := (here.skip 1).length_skipBlanks_le
    rw [Cursor.length_skip] at hle
    have hbase := tells_scriptBase hl (hh.skip 1).skipBlanks (by omega)
    have hoffset := hh.offset_le (hh.skip 1).skipBlanks (by omega)
    dsimp only
    have hoptional : Tells source here (True ∧ here.peek.bind scriptKind? = none)
        ((some <$> scriptBase (Ahead.within Retrieval.fresh n) (here.skip 1).skipBlanks)
          <|> pure none) :=
      ((hbase.earlier hoffset).map some).orElse tells_pure
    refine (hoptional.mono And.right).bind (ensures_true _) ?_
    rintro base -
    split
    · exact tells_pure
    · exact tells_pure

theorem readBlanks_eq_none {length : Nat} {kind : RecordKind}
    (h : here.readBlanks? length kind = none) : length = 0 := by
  unfold Cursor.readBlanks? at h
  split at h
  · next hzero => exact beq_iff_eq.1 hzero
  · cases h

/-- A word is missed only before a special character, or before the bracket that
closes an argument list. -/
theorem tells_word (mode : Mode) :
    Tells source here (mode = .arguments ∨ ∀ c ∈ here.peek, isSpecial c = true)
      (word mode here) := by
  unfold word
  split
  · next hpeek => exact tells_fail (by decide) (Or.inr (Or.inr (by simp [hpeek])))
  · next c hpeek =>
    refine tells_ite (fun hc => tells_failure (Or.inl ?_)) fun _ => ?_
    · rw [Bool.and_eq_true, beq_iff_eq, beq_iff_eq] at hc
      exact hc.2
    · refine tells_ite (fun _ => tells_pure) fun hpunctuation => ?_
      refine tells_ite (fun _ => tells_pure) fun hplain => ?_
      refine tells_fail (by decide) (Or.inr (Or.inr ?_))
      simpa [hpeek, isPlain, hpunctuation] using hplain

/-- The characters that tokens without a command or a comment do not begin with. -/
def haltingChars : Mode → List Char
  | .math => ['\\', '%', '}', '$']
  | .text => ['\\', '%', '}', '\x00']
  | .arguments => ['\\', '%', '}', '\x00']

theorem tells_textToken (hl : Tracks source n) (hh : here.Within source)
    (hn : here.rest.length ≤ n) (mode : Mode) :
    Tells source here (mode = .arguments ∨ ∀ c ∈ here.peek, c ∈ haltingChars .text)
      (textToken (Ahead.within Retrieval.fresh n) mode here) := by
  unfold textToken
  refine Tells.mono ((tells_group hl hh hn).orElse ((tells_delimitedMath hl hh hn .dollar).orElse
    (?_ : Tells source here (here.peek = none ∨ ∃ c more, here.rest = c :: more ∧ c ≠ '&' ∧
      c ≠ '#' ∧ scriptKind? c = none ∧ isBlank c = false ∧
      (mode = .arguments ∨ isSpecial c = true)) _))) ?_
  · split
    · next hpeek => exact tells_failure (Or.inl hpeek)
    · next c hpeek =>
      obtain ⟨more, hmore⟩ := Cursor.rest_ne_nil_of_peek hpeek
      refine tells_ite (fun _ => tells_pure) fun hmark => ?_
      rw [Bool.or_eq_true, beq_iff_eq, beq_iff_eq, not_or] at hmark
      have hparbreak : Tells source here True
          (Reading.ofOption (here.readBlanks? (parbreakLength here.rest) .parbreak)) :=
        tells_ofOption fun _ => trivial
      have hnumber : Tells source here True
          (if numberLength here.rest == 0 then failure
            else pure (here.readText (numberLength here.rest)) : Reading Found) :=
        tells_ite (fun _ => tells_failure trivial) fun _ => tells_pure
      have hblanks : Tells source here (whitespaceLength here.rest = 0)
          (Reading.ofOption (here.readBlanks? (whitespaceLength here.rest) .whitespace)) :=
        tells_ofOption readBlanks_eq_none
      refine (hparbreak.orElse <| (tells_script hl hh hn).orElse <| hnumber.orElse <|
        hblanks.orElse (tells_word mode)).mono ?_
      rintro ⟨-, hscript, -, hblank, hword⟩
      rw [hmore] at hblank
      refine Or.inr ⟨c, more, hmore, hmark.1, hmark.2, ?_, isBlank_of_whitespaceLength hblank, ?_⟩
      · simpa [hpeek] using hscript
      · exact hword.imp_right fun hspecial => hspecial c hpeek
  rintro ⟨hbrace, hdollar, hend | ⟨c, more, hmore, hand, hhash, hscript, hblank, hword⟩⟩
  · exact Or.inr (by simp [hend])
  · refine hword.imp_right fun hspecial => ?_
    rw [Cursor.peek_of_rest hmore] at hbrace ⊢
    intro d hd
    obtain rfl : c = d := by simpa using hd
    -- the other special characters have been tried
    rcases isSpecial_iff.1 hspecial with
      rfl | rfl | rfl | rfl | rfl | rfl | rfl | rfl | rfl | rfl | rfl | rfl | rfl | rfl
    · decide
    · decide
    · exact absurd rfl hbrace
    · decide
    · simp [Cursor.sees, hmore, MathDelimiter.opening] at hdollar
    · exact absurd rfl hand
    · exact absurd rfl hhash
    · cases hscript
    · cases hscript
    · decide
    · cases hblank
    · cases hblank
    · cases hblank
    · cases hblank

/-- A character of math is missed only before what ends math. -/
theorem tells_mathChar :
    Tells source here (∀ c ∈ here.peek, endsMath c = true) (mathChar here) := by
  unfold mathChar
  split
  · next hpeek => exact tells_fail (by decide) (Or.inr (by simp [hpeek]))
  · next c hpeek =>
    refine tells_ite (fun hc => tells_fail (by decide) (Or.inr ?_)) fun _ => tells_pure
    simpa [hpeek] using hc

theorem tells_mathToken (hl : Tracks source n) (hh : here.Within source)
    (hn : here.rest.length ≤ n) :
    Tells source here (∀ c ∈ here.peek, c ∈ haltingChars .math)
      (mathToken (Ahead.within Retrieval.fresh n) here) := by
  unfold mathToken
  dsimp only
  have hle := here.length_skipBlanks_le
  have hoffset := hh.offset_le hh.skipBlanks hle
  have hgroup := ((tells_group hl hh.skipBlanks (by omega)).earlier hoffset).map
    fun found : Found => (found.1.skipBlanks, found.2)
  have hscript := (tells_script hl hh.skipBlanks (Nat.le_trans hle hn)).earlier hoffset
  refine Tells.mono (hgroup.orElse
    (?_ : Tells source here (∀ c ∈ here.peek, endsMath c = true) _)) ?_
  · split
    · exact tells_pure
    · exact tells_pure
    · next hpeek => exact hscript.mono (by simp [hpeek, scriptKind?])
    · next hpeek => exact hscript.mono (by simp [hpeek, scriptKind?])
    · have hblanks : Tells source here True
          (Reading.ofOption (here.readBlanks? (whitespaceLength here.rest) .whitespace)) :=
        tells_ofOption fun _ => trivial
      exact (hblanks.orElse tells_mathChar).mono And.right
  · rintro ⟨hbrace, hends⟩ c hpeek
    have hmath := hends c hpeek
    simp only [endsMath, Bool.or_eq_true, beq_iff_eq] at hmath
    rcases hmath with (((rfl | rfl) | rfl) | rfl) | rfl
    · decide
    · rw [Cursor.skipBlanks_eq_self hpeek (by decide)] at hbrace
      exact absurd hpeek hbrace
    · decide
    · decide
    · decide

theorem comment_ne_none (h : here.peek = some '%') : comment? here ≠ none := by
  simp only [comment?]
  split
  · exact Option.some_ne_none _
  · simp [h]

/-- Where neither an environment nor a command is read behind a backslash, the command
that closes environments stands. -/
theorem startsEnd_of_backslash {more : List Char} (h : here.rest = '\\' :: more)
    (hbegin : seesBegin here = false)
    (hname : commandName more = ['b', 'e', 'g', 'i', 'n'] ∨ commandName more = ['e', 'n', 'd']) :
    StartsEnd here.rest := by
  have hsplit : more = commandName more ++ more.drop (commandNameLength more) :=
    (List.take_append_drop _ _).symm
  rcases hname with hname | hname
  · rw [hname] at hsplit
    rw [seesBegin, Cursor.sees, h, hsplit] at hbegin
    simp at hbegin
  · refine ⟨more.drop (commandNameLength more), ?_, isLetter_of_drop_name ?_⟩
    · rw [hname] at hsplit
      rw [h]
      exact congrArg ('\\' :: ·) hsplit
    · show ∀ c ∈ commandName more, isLetter c = true
      rw [hname]
      exact List.all_eq_true.1 (rfl : ['e', 'n', 'd'].all isLetter = true)

theorem haltingChars_cases {mode : Mode} {c : Char} (h : c ∈ haltingChars mode) :
    c = '\\' ∨ c = '%' ∨ c = '}' ∨ (mode = .math ∧ c = '$') ∨ c = '\x00' := by
  cases mode <;> simp [haltingChars] at h ⊢ <;> tauto

/-- A token is missed only where none begins. -/
theorem tells_token (hl : Tracks source n) (hh : here.Within source)
    (hn : here.rest.length ≤ n) (mode : Mode) :
    Tells source here (here.peek = none ∨ here.peek = some '\x00' ∨ mode = .arguments ∨
        Halts (mode == .math) here.rest)
      (token (Ahead.within Retrieval.fresh n) mode here) := by
  unfold token
  have hcomment : Tells source here (comment? here = none) (Reading.ofOption (comment? here)) :=
    tells_ofOption id
  refine Tells.mono ((tells_opened hl hh hn).orElse ((tells_command hl hh hn).orElse
    (hcomment.orElse (?_ : Tells source here
      (mode = .arguments ∨ ∀ c ∈ here.peek, c ∈ haltingChars mode) _)))) ?_
  · cases mode with
    | math => exact (tells_mathToken hl hh hn).mono Or.inr
    | text => exact tells_textToken hl hh hn .text
    | arguments => exact (tells_textToken hl hh hn .arguments).mono fun _ => Or.inl rfl
  · rintro ⟨⟨-, hbegin⟩, hcommand, hcomment, harguments | hends⟩
    · exact Or.inr (Or.inr (Or.inl harguments))
    · cases hrest : here.rest with
      | nil => exact Or.inl (by simp [Cursor.peek, hrest])
      | cons c more =>
        have hpeek := Cursor.peek_of_rest hrest
        rw [hpeek] at hends ⊢
        rcases haltingChars_cases (hends c rfl) with rfl | rfl | rfl | ⟨rfl, rfl⟩ | rfl
        · have hend := startsEnd_of_backslash hrest (hbegin hpeek) (hcommand more hrest)
          rw [hrest] at hend
          exact Or.inr (Or.inr (Or.inr (Or.inr (Or.inr hend))))
        · exact absurd hcomment (comment_ne_none hpeek)
        · exact Or.inr (Or.inr (Or.inr (Or.inl rfl)))
        · exact Or.inr (Or.inr (Or.inr (Or.inr (Or.inl ⟨rfl, rfl⟩))))
        · exact Or.inr (Or.inl rfl)

theorem upholds_sequence (hl : Tracks source n) (hh : here.Within source)
    (hn : here.rest.length ≤ n) (mode : Mode) (stop : Option (List Char)) :
    Upholds source (fun _ => True) (sequence (Ahead.within Retrieval.fresh n) mode stop here)
      (Stops mode stop) := by
  unfold sequence
  split
  · next hpeek =>
    refine upholds_pure fun _ _ => Or.inl ?_
    exact List.head?_eq_none_iff.1 hpeek
  · next c hpeek =>
    have hpos := Cursor.length_pos_of_peek hpeek
    split
    · next hstop => exact upholds_pure fun _ _ => Or.inr (Or.inl hstop)
    · split
      · have hlength : (here.skip 1).rest.length < n := by
          rw [Cursor.length_skip]
          omega
        exact hl.sequence mode stop (here.skip 1) (hh.skip 1) hlength
      · next hnull =>
        refine Upholds.bind (Upholds.and_yields (tells_token hl hh hn mode)
          (ensures_token_onward hh hn mode)) ?_
        intro outcome
        cases outcome with
        | none =>
          -- the token has gone further, or none begins here
          refine upholds_pure fun furthest hmid => Or.inr (Or.inr ?_)
          rcases hmid.1 rfl with hlt | hend | hzero | harguments | hhalts
          · exact Or.inl hlt
          · rw [hpeek] at hend
            cases hend
          · rw [hpeek, Option.some.injEq] at hzero
            exact absurd (beq_iff_eq.2 hzero) hnull
          · exact Or.inr (Or.inl harguments)
          · exact Or.inr (Or.inr hhalts)
        | some found =>
          obtain ⟨next, item⟩ := found
          intro memory hmemory hmid
          obtain ⟨hwithin, hlt⟩ := hmid.2 _ rfl
          have hlast : Upholds source (fun _ => True)
              ((Ahead.within Retrieval.fresh n).sequence mode stop next >>= fun found =>
                pure (found.1, item :: found.2)) (Stops mode stop) :=
            (hl.sequence mode stop next hwithin (Nat.lt_of_lt_of_le hlt hn)).bind
              fun found => upholds_pure fun _ h => h
          exact hlast memory hmemory trivial

/-- However far ahead one may look, reports stay in order. -/
theorem tracks_within (source : List Char) (n : Nat) : Tracks source n := by
  induction n with
  | zero =>
    exact ⟨fun _ _ _ _ h => absurd h (Nat.not_lt_zero _),
      fun _ _ _ h => absurd h (Nat.not_lt_zero _)⟩
  | succ n ih =>
    refine ⟨?_, ?_⟩
    · intro mode stop there ht hn
      exact upholds_sequence ih ht (by omega) mode stop
    · intro mode there ht hn
      exact (tells_token ih ht (by omega) mode).mono fun _ => trivial

end Rules

/-- Where the error of a text says that the end of an environment was expected, that
environment was opened and is not closed there. -/
theorem missing_of_error {text : String} {error : SyntaxError}
    (h : readDocument text = .error error) :
    ∀ what ∈ error.expected, isEndTag what = true →
      Missing text.toList error.location.offset what := by
  obtain ⟨stop, items, notes, hfree, -, -, -, hboundary, rfl⟩ := exists_notes h
  have hblank : Memory.blank.Warranted text.toList := by
    intro what hwhat
    cases hwhat
  obtain ⟨hwarranted, -, -⟩ := (tracks_within text.toList (text.toList.length + 1)).sequence .text
    none _ (Cursor.within_start _) (Nat.lt_succ_self _) Memory.blank hblank trivial
  rw [hfree Memory.blank] at hwarranted
  have hreport : (Memory.blank.noteAll (notes ++ [(stop.offset, "end of input")])).Warranted
      text.toList := by
    rw [Memory.noteAll_append]
    refine hwarranted.expect fun htag _ => ?_
    have hother : isEndTag "end of input" = false := by decide
    exact absurd htag (by simp [hother])
  obtain ⟨-, -, -, -, -, -, -, hoffset⟩ := exists_located_report hboundary
  rw [hoffset]
  exact hreport

end LatexFormatter
