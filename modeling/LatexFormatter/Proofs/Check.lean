import LatexFormatter.Check
import LatexFormatter.Proofs.Grammar.Derivation
import LatexFormatter.Proofs.Text.Lines
import Mathlib.Data.List.DropRight

/-
  What checking finds. Checking only reads a text, while formatting goes on to
  build its tree, but no parse tree is ever refused: so both fail on the same
  texts, and with the same error. After the error come the notes, one for each
  line that blanks stand at the end of; each points at the first of these blanks
  (`check_agrees`).
-/

namespace LatexFormatter

/-! ## Lines with blanks at their end -/

/-- Whether the line ends in a blank. -/
def Line.endsBlank (line : Line) : Bool := line.text.getLast?.any isSpace

/-- The text of the line without the blanks at its end. -/
def Line.kept (line : Line) : List Char := line.text.rdropWhile isSpace

/-- The note that blanks stand at the end of a line, which comes after the given
lines: where they start, and the line. -/
def blanksNote (before : List Line) (line : Line) : Diagnostic where
  severity := .note
  message := "trailing whitespace will be removed"
  location := some {
    offset := utf8Length (before.flatMap Line.whole ++ line.kept)
    line := before.length + 1
    column := line.kept.length + 1 }
  lineText := some (String.ofList line.text)

/-- The notes about a text, given its lines. -/
def blanksNotes (lines : List Line) : List Diagnostic :=
  (lines.zipIdx.filter fun (line, _) => line.endsBlank).map fun (line, index) =>
    blanksNote (lines.take index) line

theorem length_kept_lt_iff (line : Line) :
    line.kept.length < line.text.length ↔ line.endsBlank = true := by
  obtain ⟨text, ending⟩ := line
  induction text using List.reverseRecOn with
  | nil => simp [Line.kept, Line.endsBlank]
  | append_singleton cs c _ =>
    simp only [Line.kept, Line.endsBlank, List.rdropWhile_concat, List.getLast?_concat,
      Option.any_some, List.length_append, List.length_singleton]
    by_cases hc : isSpace c = true
    · have hle := (List.rdropWhile_prefix isSpace cs).length_le
      simp only [hc, if_true, iff_true]
      omega
    · simp [hc]

/-- The note at the place where the blanks of a line start. -/
theorem trailingBlankNote_eq {source : String} {front back : List Line} {line : Line}
    (h : Lined source.toList (front ++ line :: back)) (hblank : line.endsBlank = true) :
    trailingBlankNote source (utf8Length (front.flatMap Line.whole ++ line.kept))
      = blanksNote front line := by
  obtain ⟨blanks, hblanks⟩ : line.kept <+: line.text := List.rdropWhile_prefix isSpace _
  have hne : blanks ≠ [] := by
    rintro rfl
    have hshort := (length_kept_lt_iff line).2 hblank
    rw [List.append_nil] at hblanks
    rw [hblanks] at hshort
    omega
  have hwhole : line.whole = line.kept ++ (blanks ++ line.ending) := by
    rw [Line.whole, ← hblanks, List.append_assoc]
  have hplace := Location.ofOffset_eq h hwhole (Or.inl (by simp [hne]))
  have hline : (linesOf source.toList)[front.length]? = some line := by
    rw [linesOf_eq_iff.2 h]
    simp
  unfold trailingBlankNote blanksNote
  simp only [Diagnostic.pin, hplace, Diagnostic.lineAt?, Nat.add_sub_cancel, hline, Option.map_some]

/-- The notes about the lines of a text from some line on. -/
theorem notes_eq {source : String} {front rest : List Line}
    (h : Lined source.toList (front ++ rest)) :
    (trailingBlankOffsets (utf8Length (front.flatMap Line.whole)) rest).map
        (trailingBlankNote source)
      = ((rest.zipIdx front.length).filter fun (line, _) => line.endsBlank).map
          fun (line, index) => blanksNote ((front ++ rest).take index) line := by
  induction rest generalizing front with
  | nil => rfl
  | cons line rest ih =>
    have hnext : front ++ line :: rest = front ++ [line] ++ rest := by simp
    have hrest := ih (hnext ▸ h)
    rw [← hnext, List.length_append, List.length_singleton, List.flatMap_append,
      List.flatMap_singleton, utf8Length_append] at hrest
    have hlong := length_kept_lt_iff line
    simp only [trailingBlankOffsets, List.map_append, hrest, List.zipIdx_cons, List.filter_cons]
    by_cases hblank : line.endsBlank = true
    · have hnote := trailingBlankNote_eq h hblank
      rw [utf8Length_append] at hnote
      have hkept : (line.text.reverse.dropWhile isSpace).reverse.length < line.text.length :=
        hlong.2 hblank
      simp only [hkept, if_true, hblank, List.map_cons, List.map_nil, List.singleton_append,
        List.take_left]
      exact congrArg₂ _ hnote rfl
    · have hkept : ¬ (line.text.reverse.dropWhile isSpace).reverse.length < line.text.length :=
        fun h => hblank (hlong.1 h)
      simp only [hkept, if_false, hblank, List.map_nil, List.nil_append]
      rfl

/-- The notes about a whole text. -/
theorem trailingBlankNotes_eq (source : String) :
    (trailingBlankOffsets 0 (linesOf source.toList)).map (trailingBlankNote source)
      = blanksNotes (linesOf source.toList) :=
  @notes_eq source [] _ (lined_linesOf source.toList)

/-- No note is an error. -/
theorem countP_blanksNotes (lines : List Line) :
    (blanksNotes lines).countP (·.severity == .error) = 0 := by
  rw [List.countP_eq_zero]
  intro note hnote
  obtain ⟨entry, -, rfl⟩ := List.mem_map.1 hnote
  simp [blanksNote]

/-! ## The error -/

/-- Reading a text fails where building its tree does, and for the same reason. -/
theorem readDocument_cases (source : String) :
    (∃ parsed tree, readDocument source = .ok parsed ∧ parseNormalized source = .ok tree) ∨
      ∃ error, readDocument source = .error error ∧
        parseNormalized source = .error (.outsideGrammar error) := by
  rcases parse_derives source with ⟨error, hread, hparse⟩ | ⟨parsed, nodes, hread, -, hparse, -⟩
  · exact Or.inr ⟨error, hread, by rw [parseNormalized, hparse]; rfl⟩
  · exact Or.inl ⟨parsed, _, hread, by rw [parseNormalized, hparse]; rfl⟩

/-- What checking finds: the error that formatting ends with, if there is one,
and the notes. -/
theorem check_cases (source : String) :
    (∃ tree, parseNormalized source = .ok tree ∧
        check source = ⟨blanksNotes (linesOf source.toList)⟩ ∧ (check source).errors = 0) ∨
      ∃ error, parseNormalized source = .error (.outsideGrammar error) ∧
        check source
          = ⟨Diagnostic.ofSyntaxError error source :: blanksNotes (linesOf source.toList)⟩ ∧
        (check source).errors = 1 := by
  rcases readDocument_cases source with ⟨parsed, tree, hread, htree⟩ | ⟨error, hread, herror⟩
  · have hcheck : check source = ⟨blanksNotes (linesOf source.toList)⟩ := by
      simp only [check, hread, trailingBlankNotes_eq, List.nil_append]
    refine Or.inl ⟨tree, htree, hcheck, ?_⟩
    simp only [hcheck, CheckReport.errors, CheckReport.count, countP_blanksNotes]
  · have hcheck : check source
        = ⟨Diagnostic.ofSyntaxError error source :: blanksNotes (linesOf source.toList)⟩ := by
      simp only [check, hread, trailingBlankNotes_eq, List.singleton_append]
    refine Or.inr ⟨error, herror, hcheck, ?_⟩
    simp [hcheck, CheckReport.errors, CheckReport.count, countP_blanksNotes,
      Diagnostic.ofSyntaxError, Diagnostic.pin]

theorem hasErrors_check_iff (source : String) :
    (check source).hasErrors = true ↔ ∃ error, parseNormalized source = .error error := by
  rcases check_cases source with ⟨tree, htree, -, hcount⟩ | ⟨error, herror, -, hcount⟩
  · simp [CheckReport.hasErrors, hcount, htree]
  · simp [CheckReport.hasErrors, hcount, herror]

theorem formatText_of_error {options : TextOptions} {source : String} {error : FormatError}
    (hvalid : options.validate = .ok ()) (h : parseNormalized source = .error error) :
    formatText options (.text source) = .error error := by
  simp only [formatText, hvalid, Source.resolve, h]
  rfl

theorem formatLayout_of_error {options : LayoutOptions} {source : String} {error : FormatError}
    (hvalid : options.validate = .ok ()) (h : parseNormalized source = .error error) :
    formatLayout options (.text source) = .error error := by
  simp only [formatLayout, hvalid, Source.resolve, h]
  rfl

/-- Checking and formatting fail on the same texts. The report has one error if
the text cannot be read, which comes first and is the very one that formatting
ends with, and no error otherwise; then comes a note for each line that ends in
a blank, in the order of the lines. -/
theorem check_agrees (source : String) :
    ∃ errors lines, check source = ⟨errors ++ blanksNotes lines⟩ ∧ Lined source.toList lines ∧
      (check source).errors = errors.length ∧
      ((∃ tree, parseNormalized source = .ok tree ∧ errors = []) ∨
        ∃ error, parseNormalized source = .error (.outsideGrammar error) ∧
          errors = [Diagnostic.ofSyntaxError error source] ∧
          (∀ options : TextOptions, options.validate = .ok () →
            formatText options (.text source) = .error (.outsideGrammar error)) ∧
          ∀ options : LayoutOptions, options.validate = .ok () →
            formatLayout options (.text source) = .error (.outsideGrammar error)) := by
  rcases check_cases source with ⟨tree, htree, hcheck, hcount⟩ | ⟨error, herror, hcheck, hcount⟩
  · exact ⟨[], _, hcheck, lined_linesOf source.toList, hcount, Or.inl ⟨tree, htree, rfl⟩⟩
  · exact ⟨[Diagnostic.ofSyntaxError error source], _, hcheck, lined_linesOf source.toList, hcount,
      Or.inr ⟨error, herror, rfl, fun _ hvalid => formatText_of_error hvalid herror,
        fun _ hvalid => formatLayout_of_error hvalid herror⟩⟩

end LatexFormatter
