import LatexFormatter.Proofs.Grammar.Places
import Mathlib.Data.String.Basic
import Mathlib.Tactic.Tauto

/-
  What it means that remembering is invisible. A rule that runs every construct
  anew does the same from every memory: it has one result, and it makes the same
  notes of what it expected. A rule that looks constructs up has that result too,
  and leaves the same report, in every memory that is `Sound`: what is kept for
  a construct is what running it anew gives, and everything that run would note
  is part of the report already.

  `Settles` puts the two side by side, for all readers that reach far enough, and
  is closed under the ways in which rules are put together.
-/

namespace LatexFormatter

/-! ## Notes and reports -/

/-- What was expected, and at which offset. -/
abbrev Note := Nat × String

namespace Memory

/-- The strings of a report in ascending order, without repetition. -/
def Ascending (xs : List String) : Prop := xs.Pairwise (· < ·)

theorem mem_insertOrdered {s t : String} {xs : List String} :
    t ∈ insertOrdered s xs ↔ t = s ∨ t ∈ xs := by
  induction xs with
  | nil => simp [insertOrdered]
  | cons x xs ih =>
    simp only [insertOrdered]
    split
    · simp
    · split
      · rename_i heq
        simp [heq]
      · simp only [List.mem_cons, ih]
        tauto

theorem ascending_insertOrdered {s : String} {xs : List String} (h : Ascending xs) :
    Ascending (insertOrdered s xs) := by
  induction xs with
  | nil => simp [insertOrdered, Ascending]
  | cons x xs ih =>
    obtain ⟨hx, hxs⟩ := List.pairwise_cons.mp h
    simp only [insertOrdered]
    split
    · rename_i hlt
      refine List.pairwise_cons.mpr ⟨?_, h⟩
      intro t ht
      rcases List.mem_cons.mp ht with rfl | ht
      · exact hlt
      · exact String.lt_trans hlt (hx t ht)
    · split
      · exact h
      · rename_i hnlt hne
        refine List.pairwise_cons.mpr ⟨?_, ih hxs⟩
        intro t ht
        rcases mem_insertOrdered.mp ht with rfl | ht
        · rcases lt_trichotomy t x with h1 | h1 | h1
          · exact absurd h1 hnlt
          · exact absurd h1 hne
          · exact h1
        · exact hx t ht

theorem insertOrdered_of_mem {s : String} {xs : List String} (h : Ascending xs) (hs : s ∈ xs) :
    insertOrdered s xs = xs := by
  induction xs with
  | nil => simp at hs
  | cons x xs ih =>
    obtain ⟨hx, hxs⟩ := List.pairwise_cons.mp h
    rcases List.mem_cons.mp hs with rfl | hs
    · simp [insertOrdered]
    · have hlt : x < s := hx s hs
      simp [insertOrdered, String.lt_asymm hlt, (ne_of_lt hlt).symm, ih hxs hs]

/-- The report of a memory says at least what the note says. -/
def Covers (memory : Memory) (note : Note) : Prop :=
  note.1 < memory.furthest ∨ (note.1 = memory.furthest ∧ note.2 ∈ memory.expected)

/-- Two memories amount to the same report. -/
def SameReport (memory other : Memory) : Prop :=
  memory.furthest = other.furthest ∧ memory.expected = other.expected

/-- Makes notes in order. -/
def noteAll (memory : Memory) (notes : List Note) : Memory :=
  notes.foldl (fun memory note => memory.expect note.1 note.2) memory

theorem noteAll_append (memory : Memory) (xs ys : List Note) :
    memory.noteAll (xs ++ ys) = (memory.noteAll xs).noteAll ys := List.foldl_append

@[simp] theorem outcomes_expect (memory : Memory) (offset : Nat) (what : String) :
    (memory.expect offset what).outcomes = memory.outcomes := by
  unfold expect
  split
  · rfl
  · split <;> rfl

theorem covers_expect (memory : Memory) (offset : Nat) (what : String) :
    (memory.expect offset what).Covers (offset, what) := by
  unfold expect
  split
  · exact Or.inr ⟨rfl, by simp⟩
  · split
    · rename_i h
      exact Or.inr ⟨h, mem_insertOrdered.mpr (Or.inl rfl)⟩
    · exact Or.inl (by simp only; omega)

theorem Covers.expect {memory : Memory} {note : Note} (h : memory.Covers note) (offset : Nat)
    (what : String) : (memory.expect offset what).Covers note := by
  unfold Memory.expect
  split
  · rename_i hlt
    rcases h with h | ⟨h, -⟩
    · exact Or.inl (Nat.lt_trans h hlt)
    · exact Or.inl (by simp only [h]; exact hlt)
  · split
    · rcases h with h | ⟨h, hmem⟩
      · exact Or.inl h
      · exact Or.inr ⟨h, mem_insertOrdered.mpr (Or.inr hmem)⟩
    · exact h

theorem Covers.noteAll {memory : Memory} {note : Note} (h : memory.Covers note)
    (notes : List Note) : (memory.noteAll notes).Covers note := by
  induction notes generalizing memory with
  | nil => exact h
  | cons other rest ih => exact ih (h.expect other.1 other.2)

theorem covers_noteAll (memory : Memory) {notes : List Note} {note : Note} (h : note ∈ notes) :
    (memory.noteAll notes).Covers note := by
  induction notes generalizing memory with
  | nil => simp at h
  | cons other rest ih =>
    rcases List.mem_cons.mp h with rfl | h
    · exact (covers_expect memory note.1 note.2).noteAll rest
    · exact ih _ h

/-- A note that the report covers changes nothing. -/
theorem expect_of_covers {memory : Memory} {offset : Nat} {what : String}
    (ha : Ascending memory.expected) (h : memory.Covers (offset, what)) :
    memory.expect offset what = memory := by
  unfold expect
  rcases h with h | ⟨h, hmem⟩
  · simp only at h
    rw [if_neg (by omega), if_neg (by omega)]
  · simp only at h hmem
    rw [if_neg (by omega), if_pos h, insertOrdered_of_mem ha hmem]

theorem noteAll_of_covers {memory : Memory} {notes : List Note}
    (ha : Ascending memory.expected) (h : ∀ note ∈ notes, memory.Covers note) :
    memory.noteAll notes = memory := by
  induction notes with
  | nil => rfl
  | cons note rest ih =>
    have hfirst : memory.expect note.1 note.2 = memory :=
      expect_of_covers ha (h note (by simp))
    simp only [noteAll, List.foldl_cons, hfirst]
    exact ih fun other hother => h other (by simp [hother])

theorem ascending_expect {memory : Memory} (ha : Ascending memory.expected) (offset : Nat)
    (what : String) : Ascending (memory.expect offset what).expected := by
  unfold expect
  split
  · simp [Ascending]
  · split
    · exact ascending_insertOrdered ha
    · exact ha

theorem SameReport.covers {memory other : Memory} (h : memory.SameReport other) {note : Note}
    (hc : other.Covers note) : memory.Covers note := by
  unfold Covers
  rw [h.1, h.2]
  exact hc

theorem SameReport.trans {memory other third : Memory} (h : memory.SameReport other)
    (h' : other.SameReport third) : memory.SameReport third :=
  ⟨h.1.trans h'.1, h.2.trans h'.2⟩

theorem SameReport.expect {memory other : Memory} (h : memory.SameReport other) (offset : Nat)
    (what : String) : (memory.expect offset what).SameReport (other.expect offset what) := by
  unfold Memory.expect
  rw [h.1, h.2]
  split
  · exact ⟨rfl, rfl⟩
  · split
    · exact ⟨rfl, rfl⟩
    · exact h

theorem SameReport.noteAll {memory other : Memory} (h : memory.SameReport other)
    (notes : List Note) : (memory.noteAll notes).SameReport (other.noteAll notes) := by
  induction notes generalizing memory other with
  | nil => exact h
  | cons note rest ih => exact ih (h.expect note.1 note.2)

end Memory

/-! ## Memories that tell the truth -/

/-- The rule that reads a construct. -/
def readConstruct (ahead : Ahead) (here : Cursor) : Construct → Reading Found
  | .group => group ahead here
  | .math delimiter => delimitedMath ahead delimiter here
  | .arguments => argumentList ahead here
  | .mathEnvironment => mathEnvironment ahead here
  | .environment => environment ahead here

/-- The reading does the same from every memory: it ends with `result` and makes
the given notes. -/
def MemoryFree {α : Type} (reading : StateM Memory α) (result : α) (notes : List Note) : Prop :=
  ∀ memory, reading.run memory = (result, memory.noteAll notes)

/-- The report is in order, and every outcome that is kept is the one that running
the construct anew would have, while all it would note is covered. -/
structure Memory.Sound (source : List Char) (memory : Memory) : Prop where
  ascending : Ascending memory.expected
  kept : ∀ offset construct outcome, memory.outcomes[(offset, construct)]? = some outcome →
    ∃ (here : Cursor) (notes : List Note), here.Within source ∧ here.offset = offset ∧
      MemoryFree (readConstruct (Ahead.within Retrieval.fresh source.length) here construct).run
        outcome notes ∧
      ∀ note ∈ notes, memory.Covers note

/-- From a sound memory the reading ends with `result` and leaves a sound memory,
whose report is that of the given notes. -/
def Follows {α : Type} (source : List Char) (reading : StateM Memory α) (result : α)
    (notes : List Note) : Prop :=
  ∀ memory, memory.Sound source → ∃ after, reading.run memory = (result, after) ∧
    after.Sound source ∧ after.SameReport (memory.noteAll notes)

theorem Memory.sound_blank (source : List Char) : Memory.blank.Sound source := by
  refine ⟨by simp [blank, Ascending], ?_⟩
  intro offset construct outcome h
  simp [blank] at h

theorem Memory.Sound.expect {source : List Char} {memory : Memory} (h : memory.Sound source)
    (offset : Nat) (what : String) : (memory.expect offset what).Sound source := by
  refine ⟨ascending_expect h.ascending offset what, ?_⟩
  intro place construct outcome hkept
  rw [outcomes_expect] at hkept
  obtain ⟨here, notes, hh, ho, hfree, hcovers⟩ := h.kept place construct outcome hkept
  exact ⟨here, notes, hh, ho, hfree, fun note hnote => (hcovers note hnote).expect offset what⟩

theorem Memory.Sound.keep {source : List Char} {memory : Memory} (h : memory.Sound source)
    {here : Cursor} {construct : Construct} {outcome : Option Found} {notes : List Note}
    (hh : here.Within source)
    (hfree : MemoryFree
      (readConstruct (Ahead.within Retrieval.fresh source.length) here construct).run
      outcome notes)
    (hcovers : ∀ note ∈ notes, memory.Covers note) :
    (memory.keep here.offset construct outcome).Sound source := by
  refine ⟨h.ascending, ?_⟩
  intro place other found hkept
  simp only [Memory.keep, Std.HashMap.getElem?_insert] at hkept
  split at hkept
  · rename_i heq
    simp only [beq_iff_eq, Prod.mk.injEq] at heq
    obtain ⟨rfl, rfl⟩ := heq
    cases hkept
    exact ⟨here, notes, hh, rfl, hfree, hcovers⟩
  · exact h.kept place other found hkept

/-! ## Readers that reach far enough -/

/-- At the places of the text that are at most `n` characters before its end, the
readers read by the rules, over readers that reach one character less. What they
do anywhere else is left open. -/
inductive Ahead.Reaches (source : List Char) (retrieve : Retrieval) : Nat → Ahead → Prop where
  | nowhere {ahead : Ahead} (retrieves : ahead.retrieve = retrieve) :
      Ahead.Reaches source retrieve 0 ahead
  | further {n : Nat} {ahead below : Ahead} (retrieves : ahead.retrieve = retrieve)
      (reaches : Ahead.Reaches source retrieve n below)
      (sequence : ∀ mode stop there, there.Within source → there.rest.length ≤ n →
        ahead.sequence mode stop there = LatexFormatter.sequence below mode stop there)
      (token : ∀ mode there, there.Within source → there.rest.length ≤ n →
        ahead.token mode there = LatexFormatter.token below mode there) :
      Ahead.Reaches source retrieve (n + 1) ahead

@[simp] theorem Ahead.retrieve_within (retrieve : Retrieval) (n : Nat) :
    (Ahead.within retrieve n).retrieve = retrieve := by
  induction n with
  | zero => rfl
  | succ n ih => exact ih

theorem Ahead.Reaches.retrieve_eq {source : List Char} {retrieve : Retrieval} {n : Nat}
    {ahead : Ahead} (h : ahead.Reaches source retrieve n) : ahead.retrieve = retrieve := by
  cases h with
  | nowhere retrieves => exact retrieves
  | further retrieves _ _ _ => exact retrieves

/-- The bound that ties the knot says how far the readers reach. -/
theorem Ahead.reaches_within (source : List Char) (retrieve : Retrieval) (n : Nat) :
    (Ahead.within retrieve n).Reaches source retrieve n := by
  induction n with
  | zero => exact .nowhere rfl
  | succ n ih =>
    exact .further (retrieve_within retrieve (n + 1)) ih (fun _ _ _ _ _ => rfl) fun _ _ _ _ => rfl

/-! ## Rules that settle -/

section Settling

variable {α β : Type} {source : List Char} {depth : Nat}

theorem MemoryFree.bind {reading : StateM Memory α} {rest : α → StateM Memory β} {a : α} {b : β}
    {notes later : List Note} (h : MemoryFree reading a notes)
    (hrest : MemoryFree (rest a) b later) :
    MemoryFree (reading >>= rest) b (notes ++ later) := by
  intro memory
  have hfirst := h memory
  have hsecond := hrest (memory.noteAll notes)
  rw [Memory.noteAll_append, ← hsecond, StateT.run_bind, hfirst]
  rfl

theorem Follows.bind {reading : StateM Memory α} {rest : α → StateM Memory β} {a : α} {b : β}
    {notes later : List Note} (h : Follows source reading a notes)
    (hrest : Follows source (rest a) b later) :
    Follows source (reading >>= rest) b (notes ++ later) := by
  intro memory hmemory
  obtain ⟨middle, hrun, hmiddle, hsame⟩ := h memory hmemory
  obtain ⟨after, hrun', hafter, hsame'⟩ := hrest middle hmiddle
  refine ⟨after, ?_, hafter, ?_⟩
  · rw [StateT.run_bind, hrun]
    exact hrun'
  · rw [Memory.noteAll_append]
    exact hsame'.trans (hsame.noteAll later)

/-- The rule has one result and one list of notes, whatever its readers are, as
long as they reach `depth` characters. -/
structure Amounts (source : List Char) (depth : Nat) (rule : Ahead → StateM Memory α) (result : α)
    (notes : List Note) : Prop where
  fresh : ∀ n ahead, depth ≤ n → ahead.Reaches source Retrieval.fresh n →
    MemoryFree (rule ahead) result notes
  cached : ∀ n ahead, depth ≤ n → ahead.Reaches source Retrieval.cached n →
    Follows source (rule ahead) result notes
  boundary : ∀ note ∈ notes, Boundary source note.1

theorem Amounts.memoryFree {rule : Ahead → StateM Memory α} {result : α} {notes : List Note}
    (h : Amounts source depth rule result notes) (n : Nat) (hn : depth ≤ n) :
    MemoryFree (rule (Ahead.within Retrieval.fresh n)) result notes :=
  h.fresh n _ hn (Ahead.reaches_within source _ n)

theorem Amounts.follows {rule : Ahead → StateM Memory α} {result : α} {notes : List Note}
    (h : Amounts source depth rule result notes) (n : Nat) (hn : depth ≤ n) :
    Follows source (rule (Ahead.within Retrieval.cached n)) result notes :=
  h.cached n _ hn (Ahead.reaches_within source _ n)

/-- The rule amounts to one result, which has the property. -/
def Settles (source : List Char) (depth : Nat) (property : α → Prop)
    (rule : Ahead → StateM Memory α) : Prop :=
  ∃ result notes, property result ∧ Amounts source depth rule result notes

theorem Settles.mono {p q : α → Prop} {rule : Ahead → StateM Memory α} {depth' : Nat}
    (h : Settles source depth p rule) (hdepth : depth ≤ depth') (hpq : ∀ a, p a → q a) :
    Settles source depth' q rule := by
  obtain ⟨result, notes, hp, hrule⟩ := h
  exact ⟨result, notes, hpq result hp, fun n ahead hn => hrule.fresh n ahead (by omega),
    fun n ahead hn => hrule.cached n ahead (by omega), hrule.boundary⟩

theorem settles_pure {p : α → Prop} {a : α} (h : p a) :
    Settles source depth p fun _ => pure a := by
  refine ⟨a, [], h, fun n ahead _ _ memory => rfl, fun n ahead _ _ memory hmemory => ?_, by simp⟩
  exact ⟨memory, rfl, hmemory, rfl, rfl⟩

theorem Settles.bind {p : α → Prop} {q : β → Prop} {rule : Ahead → StateM Memory α}
    {rest : Ahead → α → StateM Memory β} (h : Settles source depth p rule)
    (hrest : ∀ a, p a → Settles source depth q fun ahead => rest ahead a) :
    Settles source depth q fun ahead => rule ahead >>= rest ahead := by
  obtain ⟨a, notes, hp, hrule⟩ := h
  obtain ⟨b, later, hq, hlater⟩ := hrest a hp
  refine ⟨b, notes ++ later, hq,
    fun n ahead hn hr => (hrule.fresh n ahead hn hr).bind (hlater.fresh n ahead hn hr),
    fun n ahead hn hr => (hrule.cached n ahead hn hr).bind (hlater.cached n ahead hn hr), ?_⟩
  intro note hnote
  rcases List.mem_append.mp hnote with hnote | hnote
  · exact hrule.boundary note hnote
  · exact hlater.boundary note hnote

theorem settles_ite {p : α → Prop} {c : Prop} [Decidable c] {rule other : Ahead → StateM Memory α}
    (h : c → Settles source depth p rule) (h' : ¬c → Settles source depth p other) :
    Settles source depth p fun ahead => if c then rule ahead else other ahead := by
  by_cases hc : c
  · simpa [hc] using h hc
  · simpa [hc] using h' hc

/-- The rule fails or succeeds in one way, and where it succeeds its result has
the property. -/
def Reads (source : List Char) (depth : Nat) (property : α → Prop) (rule : Ahead → Reading α) :
    Prop :=
  Settles source depth (fun outcome => ∀ a, outcome = some a → property a)
    fun ahead => (rule ahead).run

variable {p : α → Prop} {q : β → Prop} {rule other : Ahead → Reading α}

theorem Reads.mono {p' : α → Prop} (h : Reads source depth p rule) (hp : ∀ a, p a → p' a) :
    Reads source depth p' rule :=
  Settles.mono h (Nat.le_refl depth) fun _ ho a ha => hp a (ho a ha)

theorem reads_pure {a : α} (h : p a) : Reads source depth p fun _ => pure a := by
  apply settles_pure
  rintro b hb
  cases hb
  exact h

theorem reads_failure : Reads source depth p fun _ => failure := by
  apply settles_pure
  rintro b hb
  cases hb

theorem reads_ofOption {value : Option α} (h : ∀ a, value = some a → p a) :
    Reads source depth p fun _ => Reading.ofOption value := settles_pure h

theorem reads_fail {offset : Nat} (what : String) (h : Boundary source offset) :
    Reads source depth p fun _ => Reading.fail offset what := by
  refine ⟨none, [(offset, what)], by simp, fun n ahead _ _ memory => rfl,
    fun n ahead _ _ memory hmemory => ?_, ?_⟩
  · exact ⟨memory.expect offset what, rfl, hmemory.expect offset what, rfl, rfl⟩
  · simpa using h

theorem Reads.bind {rest : Ahead → α → Reading β} (h : Reads source depth p rule)
    (hrest : ∀ a, p a → Reads source depth q fun ahead => rest ahead a) :
    Reads source depth q fun ahead => rule ahead >>= rest ahead := by
  unfold Reads
  simp only [OptionT.run_bind, Option.elimM]
  apply Settles.bind h
  intro outcome houtcome
  cases outcome with
  | none => exact reads_failure
  | some a => exact hrest a (houtcome a rfl)

theorem reads_failure_bind {rest : Ahead → α → Reading β} :
    Reads source depth q fun ahead => failure >>= rest ahead :=
  Reads.bind (p := fun _ => False) reads_failure fun _ h => h.elim

theorem reads_fail_bind {rest : Ahead → α → Reading β} {offset : Nat} (what : String)
    (h : Boundary source offset) :
    Reads source depth q fun ahead => Reading.fail offset what >>= rest ahead :=
  Reads.bind (p := fun _ => False) (reads_fail what h) fun _ h => h.elim

theorem Reads.map (f : α → β) (h : Reads source depth p rule) (hf : ∀ a, p a → q (f a)) :
    Reads source depth q fun ahead => f <$> rule ahead :=
  h.bind fun a ha => reads_pure (hf a ha)

theorem Reads.orElse (h : Reads source depth p rule) (h' : Reads source depth p other) :
    Reads source depth p fun ahead => rule ahead <|> other ahead := by
  unfold Reads
  simp only [OptionT.run_orElse, Option.elimM]
  apply Settles.bind h
  intro outcome houtcome
  cases outcome with
  | none => exact h'
  | some a => exact reads_pure (houtcome a rfl)

theorem reads_some_orElse {a : α} (h : p a) :
    Reads source depth p fun ahead => Reading.ofOption (some a) <|> other ahead := reads_pure h

theorem Settles.lift {rule : Ahead → StateM Memory α} (h : Settles source depth p rule) :
    Reads source depth p fun ahead => (liftM (rule ahead) : Reading α) := by
  show Settles source depth _ fun ahead => rule ahead >>= fun a => pure (some a)
  apply Settles.bind h
  intro a ha
  exact reads_pure ha

theorem reads_ite {c : Prop} [Decidable c] (h : c → Reads source depth p rule)
    (h' : ¬c → Reads source depth p other) :
    Reads source depth p fun ahead => if c then rule ahead else other ahead := by
  by_cases hc : c
  · simpa [hc] using h hc
  · simpa [hc] using h' hc

theorem reads_literal {cs : List Char} {here : Cursor} (hh : here.Within source) :
    Reads source depth (fun next => here.sees cs = true ∧ next = here.skip cs.length)
      fun _ => Reading.literal cs here := by
  unfold Reading.literal
  refine reads_ite ?_ ?_
  · intro h
    exact reads_pure ⟨h, rfl⟩
  · intro _
    exact reads_fail _ hh.boundary

end Settling

/-- A construct settles as the rule that reads it does. A kept outcome stands for
a run whose notes are in the report already; a new one is kept together with
its notes. -/
theorem reads_retrieve {source : List Char} {depth : Nat} {p : Found → Prop} {here : Cursor}
    {construct : Construct} {rule : Ahead → Reading Found} (hdepth : depth ≤ source.length)
    (hh : here.Within source)
    (hrule : readConstruct (Ahead.within Retrieval.fresh source.length) here construct
      = rule (Ahead.within Retrieval.fresh source.length))
    (h : Reads source depth p rule) :
    Reads source depth p fun ahead => ahead.retrieve here construct (rule ahead) := by
  obtain ⟨outcome, notes, hp, hamounts⟩ := h
  have hfree := hamounts.memoryFree source.length hdepth
  rw [← hrule] at hfree
  refine ⟨outcome, notes, hp, ?_, ?_, hamounts.boundary⟩
  · intro n ahead hn hr
    simpa [hr.retrieve_eq, Retrieval.fresh] using hamounts.fresh n ahead hn hr
  · intro n ahead hn hr memory hmemory
    simp only [hr.retrieve_eq, Retrieval.cached, OptionT.run_mk]
    cases hkept : memory.outcomes[(here.offset, construct)]? with
    | some kept =>
      -- within one text the offset says where the kept run started
      obtain ⟨there, earlier, ht, ho, hthere, hcovers⟩ := hmemory.kept _ _ _ hkept
      obtain rfl : there = here := ht.eq_of_offset hh ho
      have hsame := (hthere memory).symm.trans (hfree memory)
      rw [Memory.noteAll_of_covers hmemory.ascending hcovers, Prod.mk.injEq] at hsame
      refine ⟨memory, ?_, hmemory, ?_⟩
      · simp [StateT.run, hkept, hsame.1]
      · rw [← hsame.2]
        exact ⟨rfl, rfl⟩
    | none =>
      -- the rule has just made its notes, so the report covers them
      obtain ⟨after, hrun, hafter, hsame⟩ := hamounts.cached n ahead hn hr memory hmemory
      refine ⟨after.keep here.offset construct outcome, ?_, ?_, hsame⟩
      · simp only [StateT.run] at hrun ⊢
        simp only [hkept]
        rw [OptionT.run] at hrun ⊢
        rw [hrun]
      · exact hafter.keep hh hfree fun note hnote => hsame.covers (memory.covers_noteAll hnote)

end LatexFormatter
