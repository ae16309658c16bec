import LatexFormatter.Grammar.Document
import LatexFormatter.Proofs.Grammar.Progress

/-
  Remembering is invisible: a document is read the same way whether constructs
  are run once and looked up afterwards, or run anew at every attempt. The
  sequence at the top settles like every other rule, so both ways end at the
  same place with the same trees and leave the same report; what is reported
  depends on nothing else.
-/

namespace LatexFormatter

theorem Memory.SameReport.report_eq {memory other : Memory} (h : memory.SameReport other)
    (source : List Char) : memory.report source = other.report source := by
  simp only [Memory.report, h.1, h.2]

/-- The sequence at the top of a document settles. -/
theorem settles_document {holds : ParseTree → Prop} (hT : Grows holds) (source : List Char) :
    Settles source (source.length + 1) (Onward source holds (Cursor.start source))
      fun ahead => ahead.sequence .text none (Cursor.start source) := by
  have hl := lookahead hT (Nat.le_refl source.length)
  have hs := settles_sequence hT hl (Cursor.within_start source) (Nat.le_refl _) .text none
  exact hs.sequence (Cursor.within_start source) (Nat.le_refl _)

/-- Every tree has the property that says nothing. -/
theorem grows_true : Grows fun _ => True := by
  constructor <;> intros <;> trivial

/-- What the two ways of reading a document have in common: where the sequence
stops and what it holds, and the report they leave. -/
theorem readSequence_agree (source : List Char) :
    (readSequence Retrieval.cached source).1 = (readSequence Retrieval.fresh source).1 ∧
      (readSequence Retrieval.cached source).2.SameReport (readSequence Retrieval.fresh source).2 ∧
      Memory.Ascending (readSequence Retrieval.cached source).2.expected := by
  obtain ⟨result, notes, -, hamounts⟩ := settles_document grows_true source
  have hfresh : readSequence Retrieval.fresh source = (result, Memory.blank.noteAll notes) :=
    hamounts.memoryFree _ (Nat.le_refl _) Memory.blank
  obtain ⟨after, hcached, hsound, hsame⟩ :=
    hamounts.follows _ (Nat.le_refl _) Memory.blank (Memory.sound_blank source)
  replace hcached : readSequence Retrieval.cached source = (result, after) := hcached
  rw [hfresh, hcached]
  exact ⟨rfl, hsame, hsound.ascending⟩

theorem readDocumentBy_cached (source : List Char) :
    readDocumentBy Retrieval.cached source = readDocumentBy Retrieval.fresh source := by
  obtain ⟨hresult, hsame, -⟩ := readSequence_agree source
  unfold readDocumentBy
  generalize readSequence Retrieval.cached source = cached at hresult hsame
  generalize readSequence Retrieval.fresh source = fresh at hresult hsame
  obtain ⟨⟨stop, items⟩, memory⟩ := cached
  obtain ⟨_, other⟩ := fresh
  cases hresult
  simp only [(hsame.expect stop.offset "end of input").report_eq source]

theorem expected_of_readDocumentBy {source : List Char} {error : SyntaxError}
    (h : readDocumentBy Retrieval.cached source = .error error) :
    Memory.Ascending error.expected := by
  obtain ⟨-, -, hascending⟩ := readSequence_agree source
  unfold readDocumentBy at h
  generalize readSequence Retrieval.cached source = cached at h hascending
  obtain ⟨⟨stop, items⟩, memory⟩ := cached
  dsimp only at h hascending
  split at h
  · cases h
  · cases h
    exact Memory.ascending_expect hascending _ _

/-- Reading with memory gives the tree that running every construct anew gives, or
the same report; what is expected there is in ascending order and named once. -/
theorem readDocument_eq_fresh (text : String) :
    readDocument text = readDocumentBy Retrieval.fresh text.toList ∧
      ∀ error, readDocument text = .error error → error.expected.Pairwise (· < ·) :=
  ⟨readDocumentBy_cached text.toList, fun _ h => expected_of_readDocumentBy h⟩

/-- A document that can be read is a list of trees that have every property the
grammar keeps. -/
theorem readDocument_grows {holds : ParseTree → Prop} (hT : Grows holds) {text : String}
    {tree : ParseTree} (h : readDocument text = .ok tree) :
    ∃ items, tree = .list items ∧ ∀ item ∈ items, holds item := by
  obtain ⟨result, notes, hresult, hamounts⟩ := settles_document hT text.toList
  obtain ⟨after, hcached, -, -⟩ :=
    hamounts.follows _ (Nat.le_refl _) Memory.blank (Memory.sound_blank _)
  replace hcached : readSequence Retrieval.cached text.toList = (result, after) := hcached
  unfold readDocument readDocumentBy at h
  rw [hcached] at h
  obtain ⟨stop, items⟩ := result
  dsimp only at h
  split at h
  · cases h
    exact ⟨items, rfl, hresult.2.2⟩
  · cases h

end LatexFormatter
