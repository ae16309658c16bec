import LatexFormatter.Proofs.Grammar.Remembering
import Mathlib.Data.List.TakeWhile

/-
  One walk through the grammar. Every rule that succeeds stops at a place of the
  text further on than it started, every note is made at such a place, and every
  tree it hands on has whatever property the ways of building trees keep
  (`Grows`). Because each nested reading starts further on, the bound that ties
  the knot is never felt, and so a rule settles: it amounts to one result and
  one list of notes, whether constructs are run anew or looked up.
-/

namespace LatexFormatter

/-! ## What a rule hands on -/

/-- The tree is an argument list whose items have the property. -/
def ParseTree.IsArguments (holds : ParseTree → Prop) (tree : ParseTree) : Prop :=
  ∃ items, tree = .enclosing .arguments items ∧ ∀ item ∈ items, holds item

/-- A property that holds of every tree which the grammar builds from trees that
have it. -/
structure Grows (holds : ParseTree → Prop) : Prop where
  chars : ∀ content : List Char, content ≠ [] → (∀ c ∈ content, isBlank c = false) →
    holds (.chars content)
  blanks : ∀ kind, kind = .whitespace ∨ kind = .parbreak → holds (.bare kind)
  comment : ∀ content sameline, (∀ c ∈ content, isLineBreak c = false) →
    holds (.record .comment none (some (.chars content)) none sameline none)
  enclosing : ∀ kind items, kind = .group ∨ kind = .inlineMath ∨ kind = .displayMath →
    (∀ item ∈ items, holds item) → holds (.enclosing kind items)
  script : ∀ kind base, kind = .subscript ∨ kind = .superscript →
    (∀ tree ∈ base, holds tree) → holds (.record kind none base none false none)
  command : ∀ name args, (∀ tree ∈ args, tree.IsArguments holds) →
    holds (.record .command (some name) none args false none)
  verb : ∀ content delimiter,
    holds (.record .verb none (some (.chars content)) none false (some delimiter))
  literal : ∀ kind content, kind = .verbatim ∨ kind = .commentEnvironment →
    holds (.literal kind content)
  mathEnvironment : ∀ name items, (∀ item ∈ items, holds item) →
    holds (.record .mathEnvironment (some name) (some (.list items)) none false none)
  environment : ∀ name items args, (∀ item ∈ items, holds item) →
    (∀ tree ∈ args, tree.IsArguments holds) →
    holds (.record .environment (some name) (some (.list items)) args false none)

/-- The rule stopped at a place further on, with a tree that has the property. -/
def Further (source : List Char) (holds : ParseTree → Prop) (here : Cursor) (found : Found) :
    Prop :=
  found.1.Within source ∧ found.1.rest.length < here.rest.length ∧ holds found.2

/-- The sequence stopped here or further on, with trees that have the property. -/
def Onward (source : List Char) (holds : ParseTree → Prop) (here : Cursor)
    (found : Cursor × List ParseTree) : Prop :=
  found.1.Within source ∧ found.1.rest.length ≤ here.rest.length ∧ ∀ item ∈ found.2, holds item

theorem Further.trans {source : List Char} {holds : ParseTree → Prop} {here there : Cursor}
    {found : Found} (h : Further source holds there found)
    (hle : there.rest.length ≤ here.rest.length) : Further source holds here found :=
  ⟨h.1, Nat.lt_of_lt_of_le h.2.1 hle, h.2.2⟩

/-! ## Lengths of the small things -/

theorem isBlank_iff {c : Char} :
    isBlank c = true ↔ (c = ' ' ∨ c = '\t') ∨ c = '\n' ∨ c = '\r' := by
  simp [isBlank, isSpace, isLineBreak]

/-- A character is no blank if it has a property that no blank has. -/
theorem isBlank_eq_false_of {p : Char → Bool} {c : Char} (h : p c = true)
    (hp : (p ' ' || p '\t' || p '\n' || p '\r') = false) : isBlank c = false := by
  simp only [Bool.or_eq_false_iff] at hp
  cases hc : isBlank c with
  | false => rfl
  | true => rcases isBlank_iff.1 hc with (rfl | rfl) | rfl | rfl <;> simp_all

theorem isBlank_of_isDigit {c : Char} (h : isDigit c = true) : isBlank c = false :=
  isBlank_eq_false_of h (by decide)

theorem isBlank_of_isLetter {c : Char} (h : isLetter c = true) : isBlank c = false :=
  isBlank_eq_false_of h (by decide)

theorem isBlank_of_isPlain {c : Char} (h : isPlain c = true) : isBlank c = false :=
  isBlank_eq_false_of h (by decide)

theorem isBlank_of_isPunctuation {c : Char} (h : isPunctuation c = true) : isBlank c = false :=
  isBlank_eq_false_of h (by decide)

theorem whitespaceLength_cons {c : Char} {cs : List Char} (h : isBlank c = false) :
    whitespaceLength (c :: cs) = 0 := by
  simp only [isBlank, Bool.or_eq_false_iff] at h
  have hending : lineEndingLength (c :: cs) = 0 := by
    have hn : c ≠ '\n' := by rintro rfl; simp [isLineBreak] at h
    have hr : c ≠ '\r' := by rintro rfl; simp [isLineBreak] at h
    simp [lineEndingLength, hn, hr]
  simp [whitespaceLength, spaceLength, runLength, h.1, hending]

theorem isBlank_of_whitespaceLength {c : Char} {cs : List Char}
    (h : whitespaceLength (c :: cs) = 0) : isBlank c = false := by
  cases hc : isBlank c with
  | false => rfl
  | true =>
    exfalso
    simp only [whitespaceLength] at h
    rcases isBlank_iff.1 hc with (rfl | rfl) | rfl | rfl
    · have hpos : 0 < spaceLength (' ' :: cs) := by simp [spaceLength, runLength, isSpace]
      split at h <;> omega
    · have hpos : 0 < spaceLength ('\t' :: cs) := by simp [spaceLength, runLength, isSpace]
      split at h <;> omega
    · have hzero : spaceLength ('\n' :: cs) = 0 := by simp [spaceLength, runLength, isSpace]
      simp [hzero, lineEndingLength] at h
    · have hzero : spaceLength ('\r' :: cs) = 0 := by simp [spaceLength, runLength, isSpace]
      have hpos : 0 < lineEndingLength ('\r' :: cs) := by
        unfold lineEndingLength
        split <;> simp_all
      rw [hzero, List.drop_zero] at h
      split at h
      · rename_i hending
        simp at hending
        omega
      · omega

/-- A number is made of digits and a point. -/
theorem isDigit_of_mem_number {cs : List Char} {c : Char} (h : c ∈ cs.take (numberLength cs)) :
    isDigit c = true ∨ c = '.' := by
  simp only [numberLength] at h
  split at h
  · rename_i rest hdrop
    have hcs : cs = cs.takeWhile isDigit ++ '.' :: rest := by
      have hsplit := List.take_append_drop (runLength isDigit cs) cs
      rw [take_runLength, hdrop] at hsplit
      exact hsplit.symm
    have hlength : (cs.takeWhile isDigit).length = runLength isDigit cs := rfl
    split at h
    · simp at h
    · rw [hcs, List.take_append, hlength, ← hcs] at h
      simp only [List.mem_append] at h
      rcases h with h | h
      · exact Or.inl (List.mem_takeWhile_imp (List.mem_of_mem_take h))
      · rw [show runLength isDigit cs + 1 + runLength isDigit rest - runLength isDigit cs
          = runLength isDigit rest + 1 by omega, List.take_succ_cons, take_runLength] at h
        rcases List.mem_cons.mp h with h | h
        · exact Or.inr h
        · exact Or.inl (List.mem_takeWhile_imp h)
  · simp at h

theorem isBlank_of_mem_number {cs : List Char} {c : Char} (h : c ∈ cs.take (numberLength cs)) :
    isBlank c = false := by
  rcases isDigit_of_mem_number h with hc | rfl
  · exact isBlank_of_isDigit hc
  · decide

/-! ## Rules that need no lookahead -/

section Rules

variable {source : List Char} {holds : ParseTree → Prop} {depth : Nat} {here : Cursor}

theorem further_readText (hT : Grows holds) (hh : here.Within source) {n : Nat} (hn : n ≠ 0)
    (hrest : here.rest ≠ []) (hchars : ∀ c ∈ here.rest.take n, isBlank c = false) :
    Further source holds here (here.readText n) := by
  have hpos : 0 < here.rest.length := List.length_pos_iff.mpr hrest
  refine ⟨hh.skip n, ?_, hT.chars _ ?_ hchars⟩
  · simp only [Cursor.readText, Cursor.length_skip]
    omega
  · simp [hn, hrest]

theorem further_readBlanks (hT : Grows holds) (hh : here.Within source) {n : Nat}
    {kind : RecordKind} (hrest : n ≠ 0 → here.rest ≠ [])
    (hkind : kind = .whitespace ∨ kind = .parbreak) (found : Found)
    (h : here.readBlanks? n kind = some found) : Further source holds here found := by
  unfold Cursor.readBlanks? at h
  split at h
  · cases h
  · rename_i hn
    cases h
    simp only [beq_iff_eq] at hn
    have hpos : 0 < here.rest.length := List.length_pos_iff.mpr (hrest hn)
    refine ⟨hh.skip n, ?_, hT.blanks kind hkind⟩
    simp only [Cursor.length_skip]
    omega

theorem further_commentBody (hT : Grows holds) (hh : here.Within source)
    (hpeek : here.peek = some '%') (sameline : Bool) :
    Further source holds here (commentBody here sameline) := by
  have hpos := Cursor.length_pos_of_peek hpeek
  have hstop : ∀ n, ((here.skip (n + 1)).rest).length < here.rest.length := by
    intro n
    rw [Cursor.length_skip]
    omega
  refine ⟨?_, ?_, hT.comment _ sameline ?_⟩
  · simp only [commentBody]
    split
    · exact (hh.skip _).skip _
    · exact hh.skip _
  · simp only [commentBody]
    split
    · rw [Cursor.length_skip]
      exact Nat.lt_of_le_of_lt (Nat.sub_le _ _) (hstop _)
    · exact hstop _
  · intro c hc
    have := List.mem_takeWhile_imp hc
    simpa using this

theorem further_comment (hT : Grows holds) (hh : here.Within source) (found : Found)
    (h : comment? here = some found) : Further source holds here found := by
  simp only [comment?] at h
  split at h
  · rename_i there hfilter
    obtain ⟨hthere, hpeek⟩ := Option.filter_eq_some_iff.mp hfilter
    simp only [beq_iff_eq] at hpeek
    cases h
    have hskip : ∃ n, there = here.skip n := by
      split at hthere
      · exact ⟨_, (Option.some.inj hthere).symm⟩
      · split at hthere
        · exact ⟨_, (Option.some.inj hthere).symm⟩
        · cases hthere
    obtain ⟨n, rfl⟩ := hskip
    exact (further_commentBody hT (hh.skip n) hpeek false).trans (by simp)
  · split at h
    · rename_i hpeek
      cases h
      exact further_commentBody hT hh (by simpa using hpeek) true
    · cases h

theorem further_verb (hT : Grows holds) (hh : here.Within source) (found : Found)
    (h : verb? here = some found) : Further source holds here found := by
  unfold verb? at h
  split at h
  · cases h
  · rename_i hsees
    rw [Bool.not_eq_true', Bool.not_eq_false] at hsees
    have hlength := Cursor.length_le_of_sees hsees
    simp only [List.length_cons, List.length_nil] at hlength
    split at h
    · cases h
    · split at h
      · cases h
      · obtain ⟨length, -, rfl⟩ := Option.map_eq_some_iff.mp h
        refine ⟨hh.skip _, ?_, hT.verb _ _⟩
        simp only [Cursor.length_skip]
        omega

theorem reads_literalEnvironment (hT : Grows holds) (hh : here.Within source) (name : String)
    {kind : RecordKind} (hkind : kind = .verbatim ∨ kind = .commentEnvironment) :
    Reads source depth (Further source holds here) fun _ =>
      literalEnvironment name kind here := by
  unfold literalEnvironment
  refine reads_ite (fun _ => reads_failure) ?_
  intro hsees
  rw [Bool.not_eq_true', Bool.not_eq_false] at hsees
  have hlength := Cursor.length_le_of_sees hsees
  have hpos : 0 < (beginTag name.toList).length := by simp [beginTag]
  dsimp only
  split
  · exact reads_fail _ hh.boundary_final
  · rename_i length _
    refine reads_pure ⟨?_, ?_, hT.literal kind _ hkind⟩
    · split
      · exact (hh.skip _).skip _
      · exact hh.skip _
    · split
      · simp only [Cursor.length_skip]
        omega
      · simp only [Cursor.length_skip]
        omega

theorem reads_environmentName (hh : here.Within source) :
    Reads source depth (fun found => found.1.Within source ∧
      found.1.rest.length < here.rest.length) fun _ => environmentName here := by
  unfold environmentName
  apply (reads_literal (hh.skip 6)).bind
  rintro opened ⟨hsees, rfl⟩
  have hlength := Cursor.length_le_of_sees hsees
  rw [Cursor.length_skip] at hlength
  simp only [List.length_cons, List.length_nil] at hlength
  apply (reads_literal ((hh.skip 6).skip _ |>.skip _)).bind
  rintro next ⟨-, rfl⟩
  refine reads_pure ⟨((hh.skip 6).skip _ |>.skip _).skip _, ?_⟩
  simp only [Cursor.length_skip]
  omega

theorem reads_word (hT : Grows holds) (hh : here.Within source) (mode : Mode) :
    Reads source depth (Further source holds here) fun _ => word mode here := by
  unfold word
  split
  · exact reads_fail _ hh.boundary
  · rename_i c hpeek
    obtain ⟨rest, hrest⟩ := Cursor.rest_ne_nil_of_peek hpeek
    have hne : here.rest ≠ [] := by simp [hrest]
    refine reads_ite (fun _ => reads_failure) fun _ => reads_ite ?_ fun _ => reads_ite ?_ ?_
    · intro hc
      refine reads_pure (further_readText hT hh (by decide) hne ?_)
      intro d hd
      rw [hrest] at hd
      obtain rfl : d = c := by simpa using hd
      exact isBlank_of_isPunctuation hc
    · intro hc
      refine reads_pure (further_readText hT hh ?_ hne ?_)
      · simp [runLength, hrest, hc]
      · intro d hd
        rw [take_runLength] at hd
        exact isBlank_of_isPlain (List.mem_takeWhile_imp hd)
    · intro _
      exact reads_fail _ hh.boundary

theorem reads_mathChar (hT : Grows holds) (hh : here.Within source)
    (hblank : whitespaceLength here.rest = 0) :
    Reads source depth (Further source holds here) fun _ => mathChar here := by
  unfold mathChar
  split
  · exact reads_fail _ hh.boundary
  · rename_i c hpeek
    obtain ⟨rest, hrest⟩ := Cursor.rest_ne_nil_of_peek hpeek
    rw [hrest] at hblank
    refine reads_ite (fun _ => reads_fail _ hh.boundary) fun _ => reads_pure ?_
    apply further_readText hT hh (by decide) (by simp [hrest])
    intro d hd
    rw [hrest] at hd
    obtain rfl : d = c := by simpa using hd
    exact isBlank_of_whitespaceLength hblank

/-! ## Rules for nested material -/

/-- Everything that starts less than `depth` characters before the end of the text
settles. -/
structure Lookahead (source : List Char) (holds : ParseTree → Prop) (depth : Nat) : Prop where
  bound : depth ≤ source.length
  sequence : ∀ mode stop there, there.Within source → there.rest.length < depth →
    Settles source depth (Onward source holds there) fun ahead => ahead.sequence mode stop there
  token : ∀ mode there, there.Within source → there.rest.length < depth →
    Reads source depth (Further source holds there) fun ahead => ahead.token mode there

/-- A sequence and what closes it. -/
theorem Lookahead.enclosed (hl : Lookahead source holds depth) (mode : Mode) (closing : List Char)
    (build : List ParseTree → ParseTree) (hh : here.Within source)
    (hlength : here.rest.length < depth) {p : Found → Prop}
    (hp : ∀ next items, next.Within source → next.rest.length ≤ here.rest.length →
      (∀ item ∈ items, holds item) → p (next, build items)) :
    Reads source depth p fun ahead => do
      let (stop, items) ← ahead.sequence mode (some closing) here
      let next ← Reading.literal closing stop
      return (next, build items) := by
  apply (hl.sequence mode (some closing) here hh hlength).lift.bind
  rintro ⟨stop, items⟩ ⟨hstop, hle, hitems⟩
  apply (reads_literal hstop).bind
  rintro next ⟨-, rfl⟩
  refine reads_pure (hp _ items (hstop.skip _) ?_ hitems)
  rw [Cursor.length_skip]
  exact Nat.le_trans (Nat.sub_le _ _) hle

theorem reads_group (hT : Grows holds) (hl : Lookahead source holds depth)
    (hh : here.Within source) (hdepth : here.rest.length ≤ depth) :
    Reads source depth (Further source holds here) fun ahead => group ahead here := by
  unfold group
  refine reads_ite (fun _ => reads_failure) ?_
  intro hpeek
  have hpos := Cursor.length_pos_of_peek (by simpa using hpeek)
  have hnext : (here.skip 1).rest.length < here.rest.length := by
    rw [Cursor.length_skip]
    omega
  refine reads_retrieve hl.bound hh ?_
    (hl.enclosed .text ['}'] (.enclosing .group) (hh.skip 1) (by omega) ?_)
  · simp only [readConstruct, group, if_neg hpeek, Ahead.retrieve_within, Retrieval.fresh]
  · intro next items hnext' hle hitems
    exact ⟨hnext', Nat.lt_of_le_of_lt hle hnext, hT.enclosing .group items (Or.inl rfl) hitems⟩

theorem reads_delimitedMath (hT : Grows holds) (hl : Lookahead source holds depth)
    (hh : here.Within source) (hdepth : here.rest.length ≤ depth) (delimiter : MathDelimiter) :
    Reads source depth (Further source holds here) fun ahead =>
      delimitedMath ahead delimiter here := by
  unfold delimitedMath
  refine reads_ite (fun _ => reads_failure) ?_
  intro hsees
  have hlength := hsees
  rw [Bool.not_eq_true', Bool.not_eq_false] at hlength
  replace hlength := Cursor.length_le_of_sees hlength
  have hpos : 0 < delimiter.opening.length := by cases delimiter <;> decide
  have hnext : (here.skip delimiter.opening.length).rest.length < here.rest.length := by
    rw [Cursor.length_skip]
    omega
  refine reads_retrieve hl.bound hh ?_
    (hl.enclosed .math delimiter.closing (.enclosing delimiter.kind) (hh.skip _) (by omega) ?_)
  · simp only [readConstruct, delimitedMath, if_neg hsees, Ahead.retrieve_within, Retrieval.fresh]
  · intro next items hnext' hle hitems
    refine ⟨hnext', Nat.lt_of_le_of_lt hle hnext, hT.enclosing delimiter.kind items ?_ hitems⟩
    cases delimiter <;> simp [MathDelimiter.kind]

theorem reads_argumentList (hl : Lookahead source holds depth)
    (hh : here.Within source) (hdepth : here.rest.length ≤ depth) :
    Reads source depth (Further source (ParseTree.IsArguments holds) here) fun ahead =>
      argumentList ahead here := by
  unfold argumentList
  have hthere : (here.skip (whitespaceLength here.rest)).rest.length ≤ here.rest.length := by
    rw [Cursor.length_skip]
    omega
  have hwithin : (here.skip (whitespaceLength here.rest)).Within source := hh.skip _
  generalize here.skip (whitespaceLength here.rest) = there at hthere hwithin
  refine reads_ite (fun _ => reads_failure) ?_
  intro hpeek
  obtain ⟨rest, hrest⟩ := Cursor.rest_ne_nil_of_peek (by simpa using hpeek)
  have hnext : (there.skip 1).rest.length < there.rest.length := by
    rw [Cursor.length_skip, hrest]
    simp
  have hzero : whitespaceLength there.rest = 0 := by
    rw [hrest]
    exact whitespaceLength_cons (by decide)
  refine reads_retrieve hl.bound hwithin ?_
    (hl.enclosed .arguments [']'] (.enclosing .arguments) (hwithin.skip 1) (by omega) ?_)
  · simp only [readConstruct, argumentList, hzero, Cursor.skip_zero, if_neg hpeek,
      Ahead.retrieve_within, Retrieval.fresh]
  · intro next items hnext' hle hitems
    exact ⟨hnext', Nat.lt_of_le_of_lt hle (Nat.lt_of_lt_of_le hnext hthere), items, rfl, hitems⟩

theorem reads_optionalArguments (hl : Lookahead source holds depth)
    (hh : here.Within source) (hdepth : here.rest.length ≤ depth) :
    Reads source depth (fun found => found.1.Within source ∧
      found.1.rest.length ≤ here.rest.length ∧ ∀ tree ∈ found.2, tree.IsArguments holds)
      fun ahead => optionalArguments ahead here := by
  unfold optionalArguments
  refine ((reads_argumentList hl hh hdepth).map _ ?_).orElse
    (reads_pure ⟨hh, Nat.le_refl _, by simp⟩)
  rintro ⟨next, tree⟩ ⟨hnext, hlt, htree⟩
  exact ⟨hnext, Nat.le_of_lt hlt, by simpa using htree⟩

theorem reads_command (hT : Grows holds) (hl : Lookahead source holds depth)
    (hh : here.Within source) (hdepth : here.rest.length ≤ depth) :
    Reads source depth (Further source holds here) fun ahead => command ahead here := by
  unfold command
  refine reads_ite (fun _ => reads_failure) ?_
  intro hpeek
  have hpos := Cursor.length_pos_of_peek (by simpa using hpeek)
  have hname : ∀ n, ((here.skip 1).skip n).rest.length < here.rest.length := by
    intro n
    simp only [Cursor.length_skip]
    omega
  dsimp only
  refine reads_ite (fun _ => reads_fail_bind _ (hh.skip 1).boundary) fun _ => ?_
  refine reads_ite (fun _ => reads_failure_bind) fun _ => ?_
  refine (reads_optionalArguments hl ((hh.skip 1).skip _) ?_).bind ?_
  · exact Nat.le_of_lt (Nat.lt_of_lt_of_le (hname _) hdepth)
  rintro ⟨next, args⟩ ⟨hnext, hle, hargs⟩
  exact reads_pure ⟨hnext, Nat.lt_of_le_of_lt hle (hname _), hT.command _ args hargs⟩

theorem reads_mathEnvironment (hT : Grows holds) (hl : Lookahead source holds depth)
    (hh : here.Within source) (hdepth : here.rest.length ≤ depth) :
    Reads source depth (Further source holds here) fun ahead => mathEnvironment ahead here := by
  unfold mathEnvironment
  refine reads_ite (fun _ => reads_failure) ?_
  intro hsees
  refine reads_retrieve hl.bound hh ?_ ((reads_environmentName hh).bind ?_)
  · simp only [readConstruct, mathEnvironment, if_neg hsees, Ahead.retrieve_within, Retrieval.fresh]
  rintro ⟨opened, name⟩ ⟨hopened, hlt⟩
  refine reads_ite (fun _ => reads_failure_bind) fun _ => ?_
  refine hl.enclosed .math (endTag name) (fun items => .record .mathEnvironment
    (some (String.ofList name)) (some (.list items)) none false none) hopened (by omega) ?_
  intro next items hnext hle hitems
  exact ⟨hnext, Nat.lt_of_le_of_lt hle hlt, hT.mathEnvironment _ items hitems⟩

theorem reads_environment (hT : Grows holds) (hl : Lookahead source holds depth)
    (hh : here.Within source) (hdepth : here.rest.length ≤ depth) :
    Reads source depth (Further source holds here) fun ahead => environment ahead here := by
  unfold environment
  refine reads_ite (fun _ => reads_failure) ?_
  intro hsees
  refine reads_retrieve hl.bound hh ?_ ((reads_environmentName hh).bind ?_)
  · simp only [readConstruct, environment, if_neg hsees, Ahead.retrieve_within, Retrieval.fresh]
  rintro ⟨opened, name⟩ ⟨hopened, hlt⟩
  apply (reads_optionalArguments hl hopened (by omega)).bind
  rintro ⟨start, args⟩ ⟨hstart, hle, hargs⟩
  refine hl.enclosed .text (endTag name) (fun items => .record .environment
    (some (String.ofList name)) (some (.list items)) args false none) hstart (by omega) ?_
  intro next items hnext hle' hitems
  exact ⟨hnext, Nat.lt_of_le_of_lt (Nat.le_trans hle' hle) hlt,
    hT.environment _ items args hitems hargs⟩

theorem reads_opened (hT : Grows holds) (hl : Lookahead source holds depth)
    (hh : here.Within source) (hdepth : here.rest.length ≤ depth) :
    Reads source depth (Further source holds here) fun ahead => opened ahead here := by
  unfold opened
  split
  · exact reads_delimitedMath hT hl hh hdepth .dollars
  · apply (reads_ofOption (further_verb hT hh)).orElse
    apply (reads_literalEnvironment hT hh verbatimName (Or.inl rfl)).orElse
    apply (reads_literalEnvironment hT hh commentName (Or.inr rfl)).orElse
    apply (reads_delimitedMath hT hl hh hdepth .brackets).orElse
    apply (reads_delimitedMath hT hl hh hdepth .parentheses).orElse
    exact (reads_mathEnvironment hT hl hh hdepth).orElse (reads_environment hT hl hh hdepth)
  · exact reads_failure

theorem reads_scriptBase (hT : Grows holds) (hl : Lookahead source holds depth)
    (hh : here.Within source) (hdepth : here.rest.length < depth) :
    Reads source depth (Further source holds here) fun ahead => scriptBase ahead here := by
  unfold scriptBase
  split
  · exact reads_failure
  · refine reads_ite (fun _ => reads_failure) fun _ => reads_ite (fun _ => ?_) fun _ => ?_
    · exact reads_group hT hl hh (Nat.le_of_lt hdepth)
    · exact hl.token .math here hh hdepth

theorem reads_script (hT : Grows holds) (hl : Lookahead source holds depth)
    (hh : here.Within source) (hdepth : here.rest.length ≤ depth) :
    Reads source depth (Further source holds here) fun ahead => script ahead here := by
  unfold script
  split
  · exact reads_failure
  · rename_i kind hkind
    obtain ⟨c, hpeek, hkind⟩ := Option.bind_eq_some_iff.mp hkind
    replace hkind : kind = .subscript ∨ kind = .superscript := by
      unfold scriptKind? at hkind
      split at hkind <;> cases hkind <;> simp
    have hpos := Cursor.length_pos_of_peek hpeek
    have hafter : (here.skip 1).rest.length < here.rest.length := by
      rw [Cursor.length_skip]
      omega
    have hbase := (here.skip 1).length_skipBlanks_le
    refine Reads.bind (p := fun base => ∀ found ∈ base, Further source holds here found) ?_ ?_
    · refine ((reads_scriptBase hT hl (hh.skip 1).skipBlanks (by omega)).map some ?_).orElse
        (reads_pure (by simp))
      intro found hfound
      simpa using hfound.trans (by omega)
    · intro base hfound
      cases base with
      | none => exact reads_pure ⟨hh.skip 1, hafter, hT.script kind none hkind (by simp)⟩
      | some found =>
        obtain ⟨next, content⟩ := found
        obtain ⟨hnext, hlt, hcontent⟩ := hfound _ rfl
        exact reads_pure ⟨hnext, hlt, hT.script kind (some content) hkind (by simpa using hcontent)⟩

theorem reads_textToken (hT : Grows holds) (hl : Lookahead source holds depth)
    (hh : here.Within source) (hdepth : here.rest.length ≤ depth) (mode : Mode) :
    Reads source depth (Further source holds here) fun ahead => textToken ahead mode here := by
  unfold textToken
  apply (reads_group hT hl hh hdepth).orElse
  apply (reads_delimitedMath hT hl hh hdepth .dollar).orElse
  split
  · exact reads_failure
  · rename_i c hpeek
    obtain ⟨rest, hrest⟩ := Cursor.rest_ne_nil_of_peek hpeek
    have hne : here.rest ≠ [] := by simp [hrest]
    refine reads_ite ?_ fun _ => ?_
    · intro hc
      refine reads_pure (further_readText hT hh (by decide) hne ?_)
      intro d hd
      rw [hrest] at hd
      obtain rfl : d = c := by simpa using hd
      rcases Bool.or_eq_true_iff.mp hc with hc | hc
      · rw [beq_iff_eq.mp hc]
        decide
      · rw [beq_iff_eq.mp hc]
        decide
    · refine (reads_ofOption (further_readBlanks hT hh (fun _ => hne) (Or.inr rfl))).orElse ?_
      apply (reads_script hT hl hh hdepth).orElse
      refine Reads.orElse (reads_ite (fun _ => reads_failure) ?_) ?_
      · intro hlength
        refine reads_pure (further_readText hT hh (by simpa using hlength) hne ?_)
        intro d hd
        exact isBlank_of_mem_number hd
      · exact (reads_ofOption (further_readBlanks hT hh (fun _ => hne) (Or.inl rfl))).orElse
          (reads_word hT hh mode)

theorem reads_mathToken (hT : Grows holds) (hl : Lookahead source holds depth)
    (hh : here.Within source) (hdepth : here.rest.length ≤ depth) :
    Reads source depth (Further source holds here) fun ahead => mathToken ahead here := by
  unfold mathToken
  have hinner := here.length_skipBlanks_le
  have hwithin : here.skipBlanks.Within source := hh.skipBlanks
  -- the marks that stand for themselves, with the blanks around them
  have hmark : ∀ c, here.skipBlanks.peek = some c → isBlank c = false →
      Reads source depth (Further source holds here) fun _ =>
        pure ((here.skipBlanks.skip 1).skipBlanks, .chars [c]) := by
    intro c hpeek hc
    have hpos := Cursor.length_pos_of_peek hpeek
    refine reads_pure ⟨(hwithin.skip 1).skipBlanks, ?_, hT.chars [c] (by simp) (by simpa using hc)⟩
    apply Nat.lt_of_le_of_lt (Cursor.length_skipBlanks_le _)
    rw [Cursor.length_skip]
    omega
  refine Reads.orElse ((reads_group hT hl hwithin (by omega)).map _ ?_) ?_
  · rintro ⟨next, content⟩ ⟨hnext, hlt, hcontent⟩
    refine ⟨hnext.skipBlanks, ?_, hcontent⟩
    exact Nat.lt_of_le_of_lt next.length_skipBlanks_le (Nat.lt_of_lt_of_le hlt hinner)
  · split
    · exact hmark '&' (by assumption) (by decide)
    · exact hmark '#' (by assumption) (by decide)
    · exact (reads_script hT hl hwithin (by omega)).mono fun _ h => h.trans hinner
    · exact (reads_script hT hl hwithin (by omega)).mono fun _ h => h.trans hinner
    · by_cases hzero : whitespaceLength here.rest = 0
      · refine Reads.orElse (reads_ofOption ?_) (reads_mathChar hT hh hzero)
        intro found hfound
        simp [Cursor.readBlanks?, hzero] at hfound
      · have hblanks : here.readBlanks? (whitespaceLength here.rest) .whitespace
            = some (here.skip (whitespaceLength here.rest), .bare .whitespace) := by
          simp [Cursor.readBlanks?, hzero]
        have hne : here.rest ≠ [] := by
          intro hnil
          rw [hnil] at hzero
          exact hzero rfl
        rw [hblanks]
        exact reads_some_orElse (further_readBlanks hT hh (fun _ => hne) (Or.inl rfl) _ hblanks)

theorem reads_token (hT : Grows holds) (hl : Lookahead source holds depth)
    (hh : here.Within source) (hdepth : here.rest.length ≤ depth) (mode : Mode) :
    Reads source depth (Further source holds here) fun ahead => token ahead mode here := by
  unfold token
  apply (reads_opened hT hl hh hdepth).orElse
  apply (reads_command hT hl hh hdepth).orElse
  apply (reads_ofOption (further_comment hT hh)).orElse
  cases mode with
  | math => exact reads_mathToken hT hl hh hdepth
  | text => exact reads_textToken hT hl hh hdepth .text
  | arguments => exact reads_textToken hT hl hh hdepth .arguments

theorem settles_sequence (hT : Grows holds) (hl : Lookahead source holds depth)
    (hh : here.Within source) (hdepth : here.rest.length ≤ depth) (mode : Mode)
    (stop : Option (List Char)) :
    Settles source depth (Onward source holds here) fun ahead =>
      sequence ahead mode stop here := by
  have hnothing : Onward source holds here (here, []) := ⟨hh, Nat.le_refl _, by simp⟩
  unfold sequence
  split
  · exact settles_pure hnothing
  · rename_i c hpeek
    have hpos := Cursor.length_pos_of_peek hpeek
    refine settles_ite (fun _ => settles_pure hnothing) fun _ =>
      settles_ite (fun _ => ?_) fun _ => ?_
    · have hnext : (here.skip 1).rest.length < here.rest.length := by
        rw [Cursor.length_skip]
        omega
      apply (hl.sequence mode stop _ (hh.skip 1) (by omega)).mono (Nat.le_refl _)
      rintro ⟨last, items⟩ ⟨hlast, hle, hitems⟩
      exact ⟨hlast, Nat.le_trans hle (Nat.le_of_lt hnext), hitems⟩
    · apply Settles.bind (reads_token hT hl hh hdepth mode)
      intro outcome houtcome
      cases outcome with
      | none => exact settles_pure hnothing
      | some found =>
        obtain ⟨next, item⟩ := found
        obtain ⟨hnext, hlt, hitem⟩ := houtcome _ rfl
        apply (hl.sequence mode stop next hnext (Nat.lt_of_lt_of_le hlt hdepth)).bind
        rintro ⟨last, items⟩ ⟨hlast, hle, hitems⟩
        refine settles_pure ⟨hlast, Nat.le_trans hle (Nat.le_of_lt hlt), ?_⟩
        simpa using ⟨hitem, hitems⟩

end Rules

/-! ## The knot -/

/-- A rule that settles under readers of some depth settles as a reader that looks
one character further. -/
theorem Settles.deeper {α : Type} {source : List Char} {depth : Nat} {p : α → Prop}
    {rule reader : Ahead → StateM Memory α} (h : Settles source depth p rule)
    (hreader : ∀ {retrieve n ahead}, depth ≤ n → ahead.Reaches source retrieve (n + 1) →
      ∃ below, below.Reaches source retrieve n ∧ reader ahead = rule below) :
    Settles source (depth + 1) p reader := by
  obtain ⟨result, notes, hp, hrule⟩ := h
  refine ⟨result, notes, hp, ?_, ?_, hrule.boundary⟩
  · intro n ahead hn hr
    obtain ⟨m, rfl⟩ : ∃ m, n = m + 1 := ⟨n - 1, by omega⟩
    obtain ⟨below, hbelow, heq⟩ := hreader (by omega) hr
    rw [heq]
    exact hrule.fresh m below (by omega) hbelow
  · intro n ahead hn hr
    obtain ⟨m, rfl⟩ : ∃ m, n = m + 1 := ⟨n - 1, by omega⟩
    obtain ⟨below, hbelow, heq⟩ := hreader (by omega) hr
    rw [heq]
    exact hrule.cached m below (by omega) hbelow

/-- The sequence as a reader settles as the rule for it does. -/
theorem Settles.sequence {source : List Char} {depth : Nat} {there : Cursor} {mode : Mode}
    {stop : Option (List Char)} {p : Cursor × List ParseTree → Prop}
    (h : Settles source depth p fun ahead => LatexFormatter.sequence ahead mode stop there)
    (ht : there.Within source) (hlength : there.rest.length ≤ depth) :
    Settles source (depth + 1) p fun ahead => ahead.sequence mode stop there := by
  refine h.deeper ?_
  intro retrieve n ahead hn hr
  cases hr with
  | further _ reaches sequence _ =>
    exact ⟨_, reaches, sequence mode stop there ht (by omega)⟩

/-- The token as a reader settles as the rule for it does. -/
theorem Reads.token {source : List Char} {depth : Nat} {there : Cursor} {mode : Mode}
    {p : Found → Prop}
    (h : Reads source depth p fun ahead => LatexFormatter.token ahead mode there)
    (ht : there.Within source) (hlength : there.rest.length ≤ depth) :
    Reads source (depth + 1) p fun ahead => ahead.token mode there := by
  refine Settles.deeper h ?_
  intro retrieve n ahead hn hr
  cases hr with
  | further _ reaches _ token =>
    exact ⟨_, reaches, congrArg OptionT.run (token mode there ht (by omega))⟩

theorem lookahead {source : List Char} {holds : ParseTree → Prop} (hT : Grows holds)
    {depth : Nat} (hdepth : depth ≤ source.length) : Lookahead source holds depth := by
  induction depth with
  | zero => exact ⟨hdepth, fun _ _ _ _ h => absurd h (Nat.not_lt_zero _),
      fun _ _ _ h => absurd h (Nat.not_lt_zero _)⟩
  | succ depth ih =>
    have hl := ih (by omega)
    refine ⟨hdepth, ?_, ?_⟩
    · intro mode stop there ht hlt
      exact (settles_sequence hT hl ht (by omega) mode stop).sequence ht (by omega)
    · intro mode there ht hlt
      exact (reads_token hT hl ht (by omega) mode).token ht (by omega)

end LatexFormatter
