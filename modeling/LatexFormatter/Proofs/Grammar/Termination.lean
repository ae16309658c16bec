import LatexFormatter.Proofs.Grammar.Derivation

/-
  Every rule makes progress and stays inside the text. A rule that succeeds stops
  at a later character boundary, a sequence at the same or a later one, and what
  either expected is noted at a boundary (`Rule.settles`, `sequence_settles`).

  Reading ends because nested readings start further on. A rule that starts with
  `n` characters left has one outcome over all readers that follow the grammar at
  the places of the text with fewer than `n` characters left (`Ahead.Reaches`). What
  those readers do anywhere else is left open, so the rule asks them about later
  places of the text only, and the recursion is at most as deep as the text is long.
-/

namespace LatexFormatter

/-! ## Offsets along the text -/

namespace Cursor

variable {source : List Char} {here there : Cursor}

/-- A place lies at most as many characters from the start as there are. -/
theorem Within.exists_le (h : here.Within source) :
    ∃ n, n ≤ source.length ∧ here = (start source).skip n := by
  obtain ⟨n, rfl⟩ := h
  rcases Nat.le_total n source.length with hle | hle
  · exact ⟨n, hle, rfl⟩
  · refine ⟨source.length, Nat.le_refl _, ?_⟩
    simp [Cursor.skip, start, List.take_of_length_le hle, List.drop_of_length_le hle]

/-- From a place to one with no more characters left, a piece of the text is
passed over. -/
theorem Within.exists_taken (hh : here.Within source) (ht : there.Within source)
    (hle : there.rest.length ≤ here.rest.length) :
    ∃ taken, here.rest = taken ++ there.rest ∧ there.offset = here.offset + utf8Length taken := by
  obtain ⟨m, hm, rfl⟩ := hh.exists_le
  obtain ⟨n, hn, rfl⟩ := ht.exists_le
  have hmn : m ≤ n := by
    simp only [length_skip] at hle
    simp only [start] at hle
    omega
  obtain ⟨k, rfl⟩ := Nat.exists_eq_add_of_le hmn
  rw [← skip_skip]
  exact ⟨_, Cursor.rest_eq_take_append _ k, rfl⟩

theorem Within.offset_lt (hh : here.Within source) (ht : there.Within source)
    (hlt : there.rest.length < here.rest.length) : here.offset < there.offset := by
  obtain ⟨taken, hrest, hoffset⟩ := hh.exists_taken ht (Nat.le_of_lt hlt)
  -- a piece of length zero would leave the two places with the same text ahead
  have hpos : utf8Length taken ≠ 0 := by
    intro hzero
    rw [utf8Length_eq_zero hzero, List.nil_append] at hrest
    rw [hrest] at hlt
    exact Nat.lt_irrefl _ hlt
  omega

theorem Within.offset_le_end (hh : here.Within source) : here.offset ≤ utf8Length source := by
  obtain ⟨n, rfl⟩ := hh
  have hsplit : utf8Length source = utf8Length (source.take n) + utf8Length (source.drop n) := by
    rw [← utf8Length_append, List.take_append_drop]
  simp only [Cursor.skip, start]
  omega

end Cursor

/-! ## Places that are noted -/

theorem boundary_expect {source : List Char} {memory : Memory} {offset : Nat}
    (hm : Boundary source memory.furthest) (ho : Boundary source offset) (what : String) :
    Boundary source (memory.expect offset what).furthest := by
  unfold Memory.expect
  split
  · exact ho
  · split
    · exact hm
    · exact hm

/-- The furthest place stays a boundary while boundaries are noted. -/
theorem boundary_noteAll {source : List Char} {memory : Memory} {notes : List Note}
    (hm : Boundary source memory.furthest) (hn : ∀ note ∈ notes, Boundary source note.1) :
    Boundary source (memory.noteAll notes).furthest := by
  induction notes generalizing memory with
  | nil => exact hm
  | cons note rest ih =>
    obtain ⟨hnote, hrest⟩ := List.forall_mem_cons.1 hn
    exact ih (boundary_expect hm hnote note.2) hrest

/-! ## The rules -/

/-- The rules of the grammar that read one thing. -/
inductive Rule where
  | token (mode : Mode)
  | opened
  | command
  | comment
  | group
  | math (delimiter : MathDelimiter)
  | script
  | arguments
  | mathEnvironment
  | environment
  | verb
  | verbatim
  | commentEnvironment

/-- What a rule reads. -/
def Rule.read (ahead : Ahead) (here : Cursor) : Rule → Reading Found
  | token mode => LatexFormatter.token ahead mode here
  | opened => LatexFormatter.opened ahead here
  | command => LatexFormatter.command ahead here
  | comment => Reading.ofOption (comment? here)
  | group => LatexFormatter.group ahead here
  | math delimiter => delimitedMath ahead delimiter here
  | script => LatexFormatter.script ahead here
  | arguments => argumentList ahead here
  | mathEnvironment => LatexFormatter.mathEnvironment ahead here
  | environment => LatexFormatter.environment ahead here
  | verb => Reading.ofOption (verb? here)
  | verbatim => literalEnvironment verbatimName .verbatim here
  | commentEnvironment => literalEnvironment commentName .commentEnvironment here

variable {source : List Char} {here : Cursor}

/-- The next place is a character boundary of the text, and a piece of the text
lies between. -/
structure Passes (source : List Char) (here next : Cursor) : Prop where
  within : next.Within source
  inside : next.offset ≤ utf8Length source
  taken : ∃ taken, here.rest = taken ++ next.rest ∧ next.offset = here.offset + utf8Length taken

theorem Cursor.Within.passes {next : Cursor} (hh : here.Within source) (hn : next.Within source)
    (hle : next.rest.length ≤ here.rest.length) : Passes source here next :=
  ⟨hn, hn.offset_le_end, hh.exists_taken hn hle⟩

/-- The rule stopped at a later boundary of the text. -/
def Advances (source : List Char) (here next : Cursor) : Prop :=
  Passes source here next ∧ here.offset < next.offset

theorem Further.advances {holds : ParseTree → Prop} {found : Found} (hh : here.Within source)
    (h : Further source holds here found) : Advances source here found.1 :=
  ⟨hh.passes h.1 (Nat.le_of_lt h.2.1), hh.offset_lt h.1 h.2.1⟩

/-- Every rule has one outcome, over all readers that reach as far as the text,
and where it succeeds it has advanced. -/
theorem Rule.settles (rule : Rule) (hh : here.Within source) :
    Reads source here.rest.length (fun found => Advances source here found.1)
      fun ahead => rule.read ahead here := by
  have hl := lookahead grows_true hh.length_le
  have hle := Nat.le_refl here.rest.length
  cases rule with
  | token mode => exact (reads_token grows_true hl hh hle mode).mono fun _ h => h.advances hh
  | opened => exact (reads_opened grows_true hl hh hle).mono fun _ h => h.advances hh
  | command => exact (reads_command grows_true hl hh hle).mono fun _ h => h.advances hh
  | comment =>
    exact reads_ofOption fun found h => (further_comment grows_true hh found h).advances hh
  | group => exact (reads_group grows_true hl hh hle).mono fun _ h => h.advances hh
  | math delimiter =>
    exact (reads_delimitedMath grows_true hl hh hle delimiter).mono fun _ h => h.advances hh
  | script => exact (reads_script grows_true hl hh hle).mono fun _ h => h.advances hh
  | arguments => exact (reads_argumentList hl hh hle).mono fun _ h => h.advances hh
  | mathEnvironment =>
    exact (reads_mathEnvironment grows_true hl hh hle).mono fun _ h => h.advances hh
  | environment => exact (reads_environment grows_true hl hh hle).mono fun _ h => h.advances hh
  | verb => exact reads_ofOption fun found h => (further_verb grows_true hh found h).advances hh
  | verbatim =>
    exact (reads_literalEnvironment grows_true hh verbatimName (Or.inl rfl)).mono
      fun _ h => h.advances hh
  | commentEnvironment =>
    exact (reads_literalEnvironment grows_true hh commentName (Or.inr rfl)).mono
      fun _ h => h.advances hh

/-! ## What is passed over -/

/-- What every run anew results in, the settled result is. -/
theorem Settles.and_yields {α : Type} {depth : Nat} {p q : α → Prop}
    {rule : Ahead → StateM Memory α} (h : Settles source depth p rule)
    (hq : ∀ n, Yields (rule (Ahead.within Retrieval.fresh n)) q) :
    Settles source depth (fun result => p result ∧ q result) rule := by
  obtain ⟨result, notes, hp, hamounts⟩ := h
  refine ⟨result, notes, ⟨hp, ?_⟩, hamounts⟩
  have hrun := hq depth Memory.blank
  rwa [hamounts.memoryFree depth (Nat.le_refl depth) Memory.blank] at hrun

/-- What a token passes over derives the tree it hands on. -/
theorem token_settles (mode : Mode) (hh : here.Within source) :
    Reads source here.rest.length
      (fun found => Advances source here found.1 ∧ Understood mode here found)
      fun ahead => token ahead mode here := by
  have hall := Settles.and_yields (Rule.settles (.token mode) hh)
    fun n => ensures_token (understands_within n) mode
  exact hall.mono (Nat.le_refl _) fun outcome h found hfound => ⟨h.1 found hfound, h.2 found hfound⟩

/-- A sequence has one result, over all readers that reach as far as the text, and
does not go back. What it passes over derives the trees it hands on. -/
theorem sequence_settles (mode : Mode) (stop : Option (List Char)) (hh : here.Within source) :
    Settles source here.rest.length
      (fun found => Passes source here found.1 ∧ UnderstoodAll mode here found)
      fun ahead => sequence ahead mode stop here := by
  have hl := lookahead grows_true hh.length_le
  have hall := (settles_sequence grows_true hl hh (Nat.le_refl _) mode stop).and_yields
    fun n => yields_sequence (understands_within n) mode stop
  exact hall.mono (Nat.le_refl _) fun found h => ⟨hh.passes h.1.1 h.1.2.1, h.2⟩

/-! ## Documents -/

/-- How the sequence at the top of a document ends, over all readers that reach
past the text. -/
theorem readSequence_ends (retrieve : Retrieval)
    (hr : retrieve = Retrieval.fresh ∨ retrieve = Retrieval.cached) (source : List Char) :
    (readSequence retrieve source).1.1.Within source ∧
    Boundary source (readSequence retrieve source).2.furthest ∧
    ∀ n (ahead : Ahead), source.length < n → ahead.Reaches source retrieve n →
      ((ahead.sequence .text none (Cursor.start source)).run Memory.blank).1 =
        (readSequence retrieve source).1 := by
  obtain ⟨result, notes, hresult, hamounts⟩ := settles_document grows_true source
  have hblank : Boundary source Memory.blank.furthest := (Cursor.within_start source).boundary
  have hnotes : Boundary source (Memory.blank.noteAll notes).furthest :=
    boundary_noteAll hblank hamounts.boundary
  -- both ways of retrieving end with the same result and leave the same report
  have hends : ∀ n (ahead : Ahead), source.length < n → ahead.Reaches source retrieve n →
      ∃ after, (ahead.sequence .text none (Cursor.start source)).run Memory.blank =
        (result, after) ∧ after.furthest = (Memory.blank.noteAll notes).furthest := by
    intro n ahead hn hreach
    rcases hr with rfl | rfl
    · exact ⟨_, hamounts.fresh n ahead hn hreach Memory.blank, rfl⟩
    · obtain ⟨after, hrun, -, hsame⟩ :=
        hamounts.cached n ahead hn hreach Memory.blank (Memory.sound_blank source)
      exact ⟨after, hrun, hsame.1⟩
  obtain ⟨memory, hread, hfurthest⟩ :=
    hends (source.length + 1) _ (Nat.lt_succ_self _) (Ahead.reaches_within source retrieve _)
  replace hread : readSequence retrieve source = (result, memory) := hread
  rw [hread]
  refine ⟨hresult.1, hfurthest ▸ hnotes, ?_⟩
  intro n ahead hn hreach
  obtain ⟨after, hrun, -⟩ := hends n ahead hn hreach
  rw [hrun]

/-- An error is located at a boundary of the text. -/
theorem exists_boundary_of_error {text : String} {error : SyntaxError}
    (h : readDocument text = .error error) :
    ∃ offset, Boundary text.toList offset ∧
      error.location = Location.ofOffset text.toList offset := by
  obtain ⟨hstop, hfurthest, -⟩ := readSequence_ends Retrieval.cached (Or.inr rfl) text.toList
  unfold readDocument readDocumentBy at h
  generalize readSequence Retrieval.cached text.toList = result at h hstop hfurthest
  obtain ⟨⟨stop, items⟩, memory⟩ := result
  dsimp only at h hstop hfurthest
  split at h
  · cases h
  · cases h
    exact ⟨_, boundary_expect hfurthest hstop.boundary _, rfl⟩

/-- **Every rule makes progress, stays inside the text, and ends.** From every
character boundary and in every mode, a rule that succeeds stops at a later
boundary of the text and a sequence at the same or a later one; what they pass
over is a piece of the text, which derives the trees; what they expected is noted
at boundaries. They do so over all readers that follow the grammar at later places
of the text, whatever those readers do elsewhere: nested reading starts further on
each time, and so no text takes more levels than it has characters. -/
theorem rules_advance_and_end (text : String) :
    (∀ (rule : Rule) (here : Cursor), here.Within text.toList →
      Reads text.toList here.rest.length (fun found => Advances text.toList here found.1)
        fun ahead => rule.read ahead here) ∧
    (∀ (mode : Mode) (here : Cursor), here.Within text.toList →
      Reads text.toList here.rest.length
        (fun found => Advances text.toList here found.1 ∧ Understood mode here found)
        fun ahead => token ahead mode here) ∧
    (∀ (mode : Mode) (stop : Option (List Char)) (here : Cursor), here.Within text.toList →
      Settles text.toList here.rest.length
        (fun found => Passes text.toList here found.1 ∧ UnderstoodAll mode here found)
        fun ahead => sequence ahead mode stop here) ∧
    (∀ retrieve, retrieve = Retrieval.fresh ∨ retrieve = Retrieval.cached →
      (readSequence retrieve text.toList).1.1.Within text.toList ∧
      Boundary text.toList (readSequence retrieve text.toList).2.furthest ∧
      ∀ n (ahead : Ahead), text.toList.length < n → ahead.Reaches text.toList retrieve n →
        ((ahead.sequence .text none (Cursor.start text.toList)).run Memory.blank).1 =
          (readSequence retrieve text.toList).1) ∧
    (∀ error, readDocument text = .error error →
      ∃ offset, Boundary text.toList offset ∧
        error.location = Location.ofOffset text.toList offset) := by
  refine ⟨?_, ?_, ?_, ?_, ?_⟩
  · exact fun rule here hh => rule.settles hh
  · exact fun mode here hh => token_settles mode hh
  · exact fun mode stop here hh => sequence_settles mode stop hh
  · exact fun retrieve hr => readSequence_ends retrieve hr text.toList
  · exact fun error h => exists_boundary_of_error h

end LatexFormatter
