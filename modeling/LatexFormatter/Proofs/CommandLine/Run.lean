import LatexFormatter.Proofs.Check
import LatexFormatter.Proofs.CommandLine.Disk
import Mathlib.Data.List.DropRight

/-
  What a run of the command line does to files. Of its steps only the last can
  write, and it comes when all others have succeeded: so a run either changes
  nothing or leaves one whole file behind. `Concludes` lists the seven ways a run
  can end, each with the steps that lead there; what the exit codes mean and when
  files change is read off that list (`execute_all_or_nothing`).

  The libraries and the file system are whatever they are. Of the file system it is
  assumed that it is lawful, and of writing trees as JSON that it never fails. What
  the settings of a run are and what it prints is said here once more, field by
  field and mode by mode (`merged`, `Prints`); that the program does the same is
  `resolve_eq_ok_iff` and `rendered_eq_ok_iff`.
-/

namespace LatexFormatter.CommandLine

/-! ## Settings -/

/-- What the command line says, or else the settings file, or else the default. -/
def chosen {α : Type} (given filed : Option α) (default : α) : α := given.getD (filed.getD default)

/-- The settings that the command line and a settings file amount to. The one width
of the command line counts for both printers, as the width of a tab always does. -/
def merged (arguments : Arguments) (file : FileSettings) : Configuration where
  engine := chosen arguments.engine file.engine .layout
  text :=
    { maxWidth := chosen arguments.printWidth file.maxWidth 60
      tabWidth := chosen arguments.tabWidth file.tabWidth 8 }
  layout :=
    { printWidth := chosen arguments.printWidth file.printWidth 80
      tabWidth := chosen arguments.tabWidth file.tabWidth 8
      useTabs := !arguments.useSpaces && file.useTabs.getD true
      parser := file.parser.getD "latex" }

/-- Some width is zero. -/
def Configuration.HasZeroWidth (configuration : Configuration) : Prop :=
  configuration.layout.printWidth = 0 ∨ configuration.layout.tabWidth = 0 ∨
    configuration.text.maxWidth = 0 ∨ configuration.text.tabWidth = 0

instance (configuration : Configuration) : Decidable configuration.HasZeroWidth :=
  inferInstanceAs (Decidable (_ ∨ _ ∨ _ ∨ _))

theorem requirePositive_eq_ok_iff {key : String} {width : Nat} :
    requirePositive key width = .ok () ↔ width ≠ 0 := by
  unfold requirePositive
  split <;> simp_all

theorem bind_eq_ok_iff {ε β : Type} {first : Except ε Unit} {second : Except ε β} {b : β} :
    (first >>= fun _ => second) = .ok b ↔ first = .ok () ∧ second = .ok b := by
  cases first with
  | error error => simp [bind, Except.bind]
  | ok _ => simp [bind, Except.bind]

theorem getD_orElse {α : Type} (given filed : Option α) (default : α) :
    (given <|> filed).getD default = chosen given filed default := by
  cases given <;> rfl

/-- Settings are refused exactly if a width of them is zero. -/
theorem resolve_eq_ok_iff {arguments : Arguments} {file : FileSettings}
    {configuration : Configuration} :
    Configuration.resolve arguments file = .ok configuration
      ↔ ¬ (merged arguments file).HasZeroWidth ∧ configuration = merged arguments file := by
  have hresolve : Configuration.resolve arguments file = (do
      (merged arguments file).layout.validate
      (merged arguments file).text.validate
      return merged arguments file) := by
    simp only [Configuration.resolve, getD_orElse]
    rfl
  rw [hresolve, bind_eq_ok_iff, bind_eq_ok_iff, LayoutOptions.validate, TextOptions.validate,
    bind_eq_ok_iff, bind_eq_ok_iff]
  simp only [requirePositive_eq_ok_iff, Configuration.HasZeroWidth, pure, Except.pure,
    Except.ok.injEq, ne_eq, not_or, and_assoc, eq_comm (a := configuration)]

/-! ## The steps of a run -/

/-- What a run starts from. -/
structure Situation where
  libraries : Libraries
  system : FileSystem
  files : system.State
  stdin : Except FileFault ByteArray
  arguments : Arguments

namespace Situation

/-- Bytes can be read and are this text. -/
def Reads (bytes : Except FileFault ByteArray) (text : String) : Prop :=
  ∃ content, bytes = .ok content ∧ String.fromUTF8? content = some text

variable (situation : Situation)

/-- The settings file can be read and decoded, and says this. Without one nothing
is set. -/
def ConfigRead (file : FileSettings) : Prop :=
  match situation.arguments.config with
  | none => file = {}
  | some path => ∃ text, Reads (situation.system.read situation.files path) text ∧
      situation.libraries.decodeSettings text = .ok file

/-- The settings can be read and merged, and pass their checks. -/
def Settled (file : FileSettings) : Prop :=
  situation.ConfigRead file ∧ ¬ (merged situation.arguments file).HasZeroWidth

/-- The text to be worked on can be read, from its file or else as input. -/
def InputRead (source : String) : Prop :=
  Reads (situation.arguments.input.elim situation.stdin
    (situation.system.read situation.files)) source

/-- What is to be printed of a tree: the tree as JSON, its token stream, or its text
by the printer that the settings say. -/
def Prints (file : FileSettings) (tree : Node) (text : String) : Prop :=
  if situation.arguments.tree then situation.libraries.encodeTree tree = .ok text
  else if situation.arguments.tokens then
    text = "\n".intercalate ((Token.ofNode tree).map Token.display)
  else match (merged situation.arguments file).engine with
    | .text => text = printTokens (merged situation.arguments file).text tree
    | .layout => text = printDoc (merged situation.arguments file).layout tree

end Situation

/-- A text ends in one line feed, and is another one up to line feeds at the end. -/
def WithOneFeed (printed text : String) : Prop :=
  ∃ body feeds, printed.toList = body ++ List.replicate feeds '\n' ∧ body.getLast? ≠ some '\n' ∧
    text.toList = body ++ ['\n']

theorem finishOutput_withOneFeed (printed : String) :
    WithOneFeed printed (finishOutput printed) := by
  have hsplit : ∀ cs : List Char, ∃ feeds,
      cs = cs.rdropWhile (· == '\n') ++ List.replicate feeds '\n' := by
    intro cs
    induction cs using List.reverseRecOn with
    | nil => exact ⟨0, rfl⟩
    | append_singleton cs c ih =>
      by_cases hc : c = '\n'
      · obtain ⟨feeds, hfeeds⟩ := ih
        refine ⟨feeds + 1, ?_⟩
        rw [List.rdropWhile_concat_pos _ _ _ (by simp [hc]), List.replicate_succ',
          ← List.append_assoc, ← hfeeds, hc]
      · refine ⟨0, ?_⟩
        rw [List.rdropWhile_concat_neg _ _ _ (by simp [hc]), List.replicate_zero, List.append_nil]
  obtain ⟨feeds, hfeeds⟩ := hsplit printed.toList
  refine ⟨_, feeds, hfeeds, ?_, String.toList_ofList⟩
  intro hlast
  obtain ⟨front, hfront⟩ := List.getLast?_eq_some_iff.1 hlast
  have hnot := List.rdropWhile_last_not (· == '\n') printed.toList (by simp [hfront])
  simp [hfront] at hnot

/-! ## The ways a run can end -/

/-- How a run ends, and the files it leaves. -/
inductive Concludes (situation : Situation) (colored : Bool) :
    Outcome → situation.system.State → Prop where
  | unsettled {error : FormatError} :
      (∀ file, ¬ situation.Settled file) →
      Concludes situation colored { exit := 2, message := .failure error } situation.files
  | unread {file : FileSettings} {error : FormatError} :
      situation.Settled file → (∀ source, ¬ situation.InputRead source) →
      Concludes situation colored { exit := 2, message := .failure error } situation.files
  | checked {file : FileSettings} {source : String} :
      situation.Settled file → situation.InputRead source → situation.arguments.check = true →
      Concludes situation colored
        (checkOutcome source (colored && !situation.arguments.noColor)) situation.files
  | rejected {file : FileSettings} {source : String} {error : SyntaxError} :
      situation.Settled file → situation.InputRead source → situation.arguments.check = false →
      parseNormalized source = .error (.outsideGrammar error) →
      Concludes situation colored
        { exit := 1, message := .finding (Diagnostic.ofSyntaxError error source) } situation.files
  | printed {file : FileSettings} {source : String} {tree : Node} {text : String} :
      situation.Settled file → situation.InputRead source → situation.arguments.check = false →
      parseNormalized source = .ok tree → situation.Prints file tree text →
      situation.arguments.output = none →
      Concludes situation colored { exit := 0, output := finishOutput text } situation.files
  | unopened {file : FileSettings} {source : String} {tree : Node} {path : String}
      {fault : FileFault} :
      situation.Settled file → situation.InputRead source → situation.arguments.check = false →
      parseNormalized source = .ok tree → situation.arguments.output = some path →
      situation.system.create situation.files path = .error fault →
      Concludes situation colored { exit := 2, message := .failure (.file fault) } situation.files
  | written {file : FileSettings} {source : String} {tree : Node} {text path : String}
      {place : situation.system.Place} {opened after : situation.system.State} :
      situation.Settled file → situation.InputRead source → situation.arguments.check = false →
      parseNormalized source = .ok tree → situation.Prints file tree text →
      situation.arguments.output = some path →
      situation.system.create situation.files path = .ok (place, opened) →
      situation.system.append opened place (finishOutput text).toUTF8 = .ok after →
      Concludes situation colored { exit := 0, message := .written path } after

section

variable {α β σ : Type} {before between : σ}

theorem run_bind_ok {x : ExceptT FormatError (StateM σ) α} {a : α}
    (f : α → ExceptT FormatError (StateM σ) β) (h : x.run.run before = (.ok a, between)) :
    (x >>= f).run.run before = (f a).run.run between := by
  rw [ExceptT.run_bind, StateT.run_bind, h]
  rfl

theorem run_bind_error {x : ExceptT FormatError (StateM σ) α} {error : FormatError}
    (f : α → ExceptT FormatError (StateM σ) β) (h : x.run.run before = (.error error, between)) :
    (x >>= f).run.run before = (.error error, between) := by
  rw [ExceptT.run_bind, StateT.run_bind, h]
  rfl

theorem mapError_eq_ok_iff {ε ε' : Type} {f : ε → ε'} {result : Except ε α} {a : α} :
    result.mapError f = .ok a ↔ result = .ok a := by
  cases result with
  | error error => simp [Except.mapError]
  | ok b => simp [Except.mapError]

theorem decodeText_eq_ok_iff {bytes : Except FileFault ByteArray} {text : String} :
    decodeText bytes = .ok text ↔ Situation.Reads bytes text := by
  unfold decodeText Situation.Reads
  cases bytes with
  | error fault => simp
  | ok content => cases h : String.fromUTF8? content <;> simp [h]

theorem liftExcept_run {result : Except OptionFault α} {lifted : Except FormatError α}
    (h : result.mapError .invalidOptions = lifted) :
    (configure.liftExcept result : ExceptT FormatError (StateM σ) α).run.run before
      = (lifted, before) := by
  subst h
  rfl

end

section

variable {situation : Situation} {colored : Bool}

/-- The host of a run. -/
def Situation.host (situation : Situation) : Host (StateM situation.system.State) :=
  situation.system.host situation.stdin

theorem configure_run (situation : Situation) :
    ∃ result, (configure situation.libraries situation.host situation.arguments).run.run
        situation.files = (result, situation.files) ∧
      ∀ configuration, result = .ok configuration ↔ ∃ file, situation.Settled file ∧
        configuration = merged situation.arguments file := by
  unfold configure Situation.Settled Situation.ConfigRead
  cases situation.arguments.config with
  | none =>
    refine ⟨(Configuration.resolve situation.arguments {}).mapError .invalidOptions, rfl, ?_⟩
    intro configuration
    rw [mapError_eq_ok_iff, resolve_eq_ok_iff]
    simp
  | some path =>
    have hfile : (ExceptT.mk (decodeText <$> situation.host.readFile path)).run.run
          situation.files
        = (decodeText (situation.system.read situation.files path), situation.files) := rfl
    simp only [← decodeText_eq_ok_iff]
    cases hread : decodeText (situation.system.read situation.files path) with
    | error error =>
      rw [hread] at hfile
      exact ⟨.error error, run_bind_error _ hfile, by simp⟩
    | ok text =>
      rw [hread] at hfile
      cases hsettings : situation.libraries.decodeSettings text with
      | error detail =>
        have hlift : ((situation.libraries.decodeSettings text).mapError
            (OptionFault.unreadable path)).mapError FormatError.invalidOptions
              = .error (.invalidOptions (.unreadable path detail)) := by rw [hsettings]; rfl
        exact ⟨_, (run_bind_ok _ hfile).trans (run_bind_error _ (liftExcept_run hlift)),
          by simp [hsettings]⟩
      | ok file =>
        have hlift : ((situation.libraries.decodeSettings text).mapError
            (OptionFault.unreadable path)).mapError FormatError.invalidOptions = .ok file := by
          rw [hsettings]; rfl
        refine ⟨(Configuration.resolve situation.arguments file).mapError .invalidOptions,
          (run_bind_ok _ hfile).trans (run_bind_ok _ (liftExcept_run hlift)), ?_⟩
        intro configuration
        rw [mapError_eq_ok_iff, resolve_eq_ok_iff]
        simp [hsettings]

theorem readSource_run (situation : Situation) :
    (readSource situation.host situation.arguments).run.run situation.files
      = (decodeText (situation.arguments.input.elim situation.stdin
          (situation.system.read situation.files)), situation.files) := by
  unfold readSource
  cases situation.arguments.input with
  | none => rfl
  | some path => rfl

theorem createFile_run (situation : Situation) (path : String) :
    (ExceptT.mk (Except.mapError FormatError.file <$> situation.host.createFile path)).run.run
        situation.files
      = match situation.system.create situation.files path with
        | .error fault => (.error (.file fault), situation.files)
        | .ok (place, opened) => (.ok place, opened) := by
  cases hcreate : situation.system.create situation.files path with
  | error fault =>
    simp [Situation.host, FileSystem.host, hcreate]
    rfl
  | ok opened =>
    simp [Situation.host, FileSystem.host, hcreate]
    rfl

theorem writeAll_run {place : situation.system.Place} {opened after : situation.system.State}
    {bytes : ByteArray} (h : situation.system.append opened place bytes = .ok after) :
    (ExceptT.mk (Except.mapError FormatError.file <$>
        situation.host.writeAll place bytes)).run.run opened = (.ok (), after) := by
  simp [Situation.host, FileSystem.host, h]
  rfl

/-- What the program renders is what is to be printed. -/
theorem rendered_eq_ok_iff {file : FileSettings} {tree : Node} {text : String} :
    rendered situation.libraries situation.arguments (merged situation.arguments file) tree
        = .ok text
      ↔ situation.Prints file tree text := by
  unfold rendered Situation.Prints
  split
  · exact mapError_eq_ok_iff
  · split
    · rw [Except.ok.injEq, eq_comm]
    · cases (merged situation.arguments file).engine with
      | text => rw [Except.ok.injEq, eq_comm]
      | layout => rw [Except.ok.injEq, eq_comm]

theorem exists_rendered
    (hencode : ∀ tree, ∃ text, situation.libraries.encodeTree tree = .ok text)
    (configuration : Configuration) (tree : Node) :
    ∃ text, rendered situation.libraries situation.arguments configuration tree = .ok text := by
  unfold rendered
  split
  · obtain ⟨text, htext⟩ := hencode tree
    exact ⟨text, mapError_eq_ok_iff.2 htext⟩
  · split
    · exact ⟨_, rfl⟩
    · split <;> exact ⟨_, rfl⟩

theorem execute_run {args : List String} {result : Except FormatError Outcome}
    {after : situation.system.State}
    (h : situation.libraries.readArguments args = .ok (.run situation.arguments))
    (hrun : (run situation.libraries situation.host colored situation.arguments).run.run
      situation.files = (result, after)) :
    runOver situation.libraries situation.system situation.files situation.stdin colored args
      = (match result with
          | .ok outcome => outcome
          | .error error => { exit := 2, message := .failure error }, after) := by
  change (execute situation.libraries situation.host colored args).run situation.files = _
  simp only [execute, h, StateT.run_bind, hrun]
  cases result with
  | ok outcome => rfl
  | error error => rfl

/-- A run ends in one of the seven ways. -/
theorem runOver_concludes {args : List String} (hsystem : situation.system.Lawful)
    (hencode : ∀ tree, ∃ text, situation.libraries.encodeTree tree = .ok text)
    (h : situation.libraries.readArguments args = .ok (.run situation.arguments)) :
    Concludes situation colored
      (runOver situation.libraries situation.system situation.files situation.stdin colored args).1
      (runOver situation.libraries situation.system situation.files situation.stdin colored
        args).2 := by
  obtain ⟨settings, hconfigure, hsettled⟩ := configure_run situation
  have hsource := readSource_run situation
  cases settings with
  | error error =>
    rw [execute_run h (run_bind_error _ hconfigure)]
    exact .unsettled fun file hfile => nomatch (hsettled _).2 ⟨file, hfile, rfl⟩
  | ok configuration =>
    obtain ⟨file, hfile, rfl⟩ := (hsettled configuration).1 rfl
    cases hread : decodeText (situation.arguments.input.elim situation.stdin
        (situation.system.read situation.files)) with
    | error error =>
      rw [hread] at hsource
      rw [execute_run h ((run_bind_ok _ hconfigure).trans (run_bind_error _ hsource))]
      exact .unread hfile fun source hs => nomatch hread.symm.trans (decodeText_eq_ok_iff.2 hs)
    | ok source =>
      have hinput : situation.InputRead source := decodeText_eq_ok_iff.1 hread
      rw [hread] at hsource
      have hrun : (run situation.libraries situation.host colored situation.arguments).run.run
          situation.files = _ := (run_bind_ok _ hconfigure).trans (run_bind_ok _ hsource)
      cases hcheck : situation.arguments.check with
      | true =>
        simp only [hcheck, if_true] at hrun
        rw [execute_run h hrun]
        exact .checked hfile hinput hcheck
      | false =>
        simp only [hcheck, Bool.false_eq_true, if_false] at hrun
        rcases readDocument_cases source with ⟨-, tree, -, hparse⟩ | ⟨error, -, hparse⟩
        · obtain ⟨text, htext⟩ :=
            exists_rendered hencode (merged situation.arguments file) tree
          have hprints := rendered_eq_ok_iff.1 htext
          have hpure : (ExceptT.mk (pure (rendered situation.libraries situation.arguments
              (merged situation.arguments file) tree)) :
                ExceptT FormatError (StateM situation.system.State) String).run.run
                situation.files = (.ok text, situation.files) := by rw [htext]; rfl
          simp only [hparse] at hrun
          replace hrun := hrun.trans (run_bind_ok _ hpure)
          unfold deliver at hrun
          cases houtput : situation.arguments.output with
          | none =>
            simp only [houtput] at hrun
            rw [execute_run h hrun]
            exact .printed hfile hinput hcheck hparse hprints houtput
          | some path =>
            simp only [houtput] at hrun
            have hopen := createFile_run situation path
            cases hcreate : situation.system.create situation.files path with
            | error fault =>
              rw [hcreate] at hopen
              rw [execute_run h (hrun.trans (run_bind_error _ hopen))]
              exact .unopened hfile hinput hcheck hparse houtput hcreate
            | ok created =>
              obtain ⟨place, opened⟩ := created
              rw [hcreate] at hopen
              obtain ⟨after, hafter⟩ :=
                hsystem.append_create hcreate (finishOutput text).toUTF8
              rw [execute_run h (hrun.trans ((run_bind_ok _ hopen).trans
                (run_bind_ok _ (writeAll_run hafter))))]
              exact .written hfile hinput hcheck hparse hprints houtput hcreate hafter
        · simp only [hparse] at hrun
          rw [execute_run h hrun]
          exact .rejected hfile hinput hcheck hparse

end

/-! ## What a run leaves behind -/

namespace Situation

variable (situation : Situation)

/-- What a run is to print: what the arguments ask for of the tree of its text, with
one line feed at the end. -/
def Renders (text : String) : Prop :=
  ∃ file source tree printed, situation.Settled file ∧ situation.InputRead source ∧
    parseNormalized source = .ok tree ∧ situation.Prints file tree printed ∧
    WithOneFeed printed text

/-- The file that a path is opened as has the content, and no other file is any
different. -/
def OnlyFile (after : situation.system.State) (path : String) (content : ByteArray) : Prop :=
  ∃ place opened, situation.system.create situation.files path = .ok (place, opened) ∧
    situation.system.content after place = some content ∧
    ∀ other, other ≠ place →
      situation.system.content after other = situation.system.content situation.files other

/-- Nothing before parsing fails, but the text does not parse. -/
def SourceRejected : Prop :=
  ∃ file source error, situation.Settled file ∧ situation.InputRead source ∧
    parseNormalized source = .error error

/-- Opening the output fails. It is opened only when there is something to write. -/
def OutputRefused : Prop :=
  ∃ source tree path fault, situation.InputRead source ∧ situation.arguments.check = false ∧
    parseNormalized source = .ok tree ∧ situation.arguments.output = some path ∧
    situation.system.create situation.files path = .error fault

/-- A step other than parsing fails: reading or decoding the settings file, checking
the merged settings, reading the text, or opening the output. -/
def StepFails : Prop :=
  (∀ file, ¬ situation.ConfigRead file) ∨
    (∃ file, situation.ConfigRead file ∧ (merged situation.arguments file).HasZeroWidth) ∨
    (∀ source, ¬ situation.InputRead source) ∨ situation.OutputRefused

end Situation

/-- A run does all that was asked for or nothing, and its exit code tells which. -/
structure AllOrNothing (situation : Situation) (outcome : Outcome)
    (after : situation.system.State) : Prop where
  untouched : outcome.exit ≠ 0 ∨ situation.arguments.check = true → after = situation.files
  written : outcome.exit = 0 → situation.arguments.check = false →
    ∀ path, situation.arguments.output = some path →
      outcome.output = "" ∧
        ∃ text, situation.Renders text ∧ situation.OnlyFile after path text.toUTF8
  shown : outcome.exit = 0 → situation.arguments.check = false →
    situation.arguments.output = none →
      after = situation.files ∧ situation.Renders outcome.output
  exit_two_iff : outcome.exit = 2 ↔ situation.StepFails
  exit_one_iff : outcome.exit = 1 ↔ situation.SourceRejected
  exit_le_two : outcome.exit ≤ 2

section

variable {situation : Situation} {after : situation.system.State} {colored : Bool}
  {outcome : Outcome} {file : FileSettings} {source : String}

theorem Situation.Reads.unique {bytes : Except FileFault ByteArray} {text other : String}
    (h : Reads bytes text) (hother : Reads bytes other) : text = other :=
  Except.ok.inj ((decodeText_eq_ok_iff.2 h).symm.trans (decodeText_eq_ok_iff.2 hother))

theorem Situation.ConfigRead.unique {other : FileSettings} (h : situation.ConfigRead file)
    (hother : situation.ConfigRead other) : file = other := by
  unfold ConfigRead at h hother
  cases hconfig : situation.arguments.config with
  | none =>
    simp only [hconfig] at h hother
    rw [h, hother]
  | some path =>
    simp only [hconfig] at h hother
    obtain ⟨text, hread, hdecode⟩ := h
    obtain ⟨text', hread', hdecode'⟩ := hother
    rw [hread.unique hread'] at hdecode
    exact Except.ok.inj (hdecode.symm.trans hdecode')

/-- There are no settings to go by if they cannot be had, or if they are refused. -/
theorem Situation.forall_not_settled_iff :
    (∀ file, ¬ situation.Settled file) ↔ (∀ file, ¬ situation.ConfigRead file) ∨
      ∃ file, situation.ConfigRead file ∧ (merged situation.arguments file).HasZeroWidth := by
  constructor
  · intro hnone
    by_cases hread : ∃ file, situation.ConfigRead file
    · obtain ⟨file, hfile⟩ := hread
      exact Or.inr ⟨file, hfile, by_contra fun hwidths => hnone file ⟨hfile, hwidths⟩⟩
    · exact Or.inl fun file hfile => hread ⟨file, hfile⟩
  · rintro (hnone | ⟨file, hfile, hzero⟩) other ⟨hother, hwidths⟩
    · exact hnone other hother
    · rw [hother.unique hfile] at hwidths
      exact hwidths hzero

theorem onlyFile_written {path : String} {place : situation.system.Place}
    {opened : situation.system.State} {content : ByteArray} (hsystem : situation.system.Lawful)
    (hcreate : situation.system.create situation.files path = .ok (place, opened))
    (hafter : situation.system.append opened place content = .ok after) :
    situation.OnlyFile after path content := by
  refine ⟨place, opened, hcreate, ?_, fun other hne => ?_⟩
  · rw [hsystem.content_append hafter (hsystem.content_create hcreate), ByteArray.empty_append]
  · rw [hsystem.content_append_of_ne hafter hne, hsystem.content_create_of_ne hcreate hne]

theorem checkOutcome_exit_eq_one_iff (source : String) (useColor : Bool) :
    (checkOutcome source useColor).exit = 1 ↔ ∃ error, parseNormalized source = .error error := by
  rw [← hasErrors_check_iff]
  simp [checkOutcome]

/-- Once the settings and the text are there, the text alone decides. -/
theorem sourceRejected_iff (hfile : situation.Settled file)
    (hsource : situation.InputRead source) :
    situation.SourceRejected ↔ ∃ error, parseNormalized source = .error error := by
  constructor
  · rintro ⟨-, other, error, -, hother, herror⟩
    exact ⟨error, hsource.unique hother ▸ herror⟩
  · rintro ⟨error, herror⟩
    exact ⟨file, source, error, hfile, hsource, herror⟩

theorem stepFails_of_unsettled (h : ∀ file, ¬ situation.Settled file) : situation.StepFails :=
  (Situation.forall_not_settled_iff.1 h).imp_right Or.inl

/-- Once the settings and the text are there, only the output can fail. -/
theorem stepFails_iff (hfile : situation.Settled file) (hsource : situation.InputRead source) :
    situation.StepFails ↔ situation.arguments.check = false ∧ ∃ tree path fault,
      parseNormalized source = .ok tree ∧ situation.arguments.output = some path ∧
        situation.system.create situation.files path = .error fault := by
  constructor
  · rintro (hnone | hzero | hnone | ⟨other, tree, path, fault, hother, hcheck, hrest⟩)
    · exact absurd hfile.1 (hnone file)
    · exact absurd hfile (Situation.forall_not_settled_iff.2 (Or.inr hzero) file)
    · exact absurd hsource (hnone source)
    · exact ⟨hcheck, tree, path, fault, hsource.unique hother ▸ hrest⟩
  · rintro ⟨hcheck, tree, path, fault, hrest⟩
    exact Or.inr (Or.inr (Or.inr ⟨source, tree, path, fault, hsource, hcheck, hrest⟩))

theorem Concludes.exit_one_iff (h : Concludes situation colored outcome after) :
    outcome.exit = 1 ↔ situation.SourceRejected := by
  cases h with
  | unsettled hfile => simp [Situation.SourceRejected, hfile]
  | unread _ hsource => simp [Situation.SourceRejected, hsource]
  | checked hfile hsource _ => rw [sourceRejected_iff hfile hsource, checkOutcome_exit_eq_one_iff]
  | rejected hfile hsource _ hparse => simp [sourceRejected_iff hfile hsource, hparse]
  | printed hfile hsource _ hparse _ _ => simp [sourceRejected_iff hfile hsource, hparse]
  | unopened hfile hsource _ hparse _ _ => simp [sourceRejected_iff hfile hsource, hparse]
  | written hfile hsource _ hparse _ _ _ _ => simp [sourceRejected_iff hfile hsource, hparse]

theorem Concludes.exit_two_iff (h : Concludes situation colored outcome after) :
    outcome.exit = 2 ↔ situation.StepFails := by
  cases h with
  | unsettled hfile => simp [stepFails_of_unsettled hfile]
  | unread _ hsource => simp [Situation.StepFails, hsource]
  | checked hfile hsource hcheck =>
    rw [stepFails_iff hfile hsource]
    simp only [hcheck, checkOutcome]
    split <;> simp
  | rejected hfile hsource _ hparse => rw [stepFails_iff hfile hsource]; simp [hparse]
  | printed hfile hsource _ _ _ houtput => rw [stepFails_iff hfile hsource]; simp [houtput]
  | unopened hfile hsource hcheck hparse houtput hcreate =>
    rw [stepFails_iff hfile hsource]
    simp [hcheck, hparse, houtput, hcreate]
  | written hfile hsource _ _ _ houtput hcreate _ =>
    rw [stepFails_iff hfile hsource]
    simp [houtput, hcreate]

theorem Concludes.exit_le_two (h : Concludes situation colored outcome after) :
    outcome.exit ≤ 2 := by
  cases h with
  | checked _ _ _ => simp only [checkOutcome]; split <;> omega
  | _ => simp

/-- Files change only in the last of the ways to end. -/
theorem Concludes.untouched (h : Concludes situation colored outcome after)
    (hfailed : outcome.exit ≠ 0 ∨ situation.arguments.check = true ∨
      situation.arguments.output = none) : after = situation.files := by
  cases h with
  | written _ _ hcheck _ _ houtput _ _ => simp [hcheck, houtput] at hfailed
  | _ => rfl

theorem Concludes.allOrNothing (hsystem : situation.system.Lawful)
    (h : Concludes situation colored outcome after) : AllOrNothing situation outcome after where
  untouched hfailed := h.untouched (hfailed.imp_right Or.inl)
  written hexit hcheck path hpath := by
    cases h with
    | written hfile hsource _ hparse hprints houtput hcreate hafter =>
      obtain rfl : _ = path := Option.some.inj (houtput.symm.trans hpath)
      exact ⟨rfl, _, ⟨_, _, _, _, hfile, hsource, hparse, hprints, finishOutput_withOneFeed _⟩,
        onlyFile_written hsystem hcreate hafter⟩
    | checked _ _ hchecked => simp [hchecked] at hcheck
    | printed _ _ _ _ _ houtput => simp [houtput] at hpath
    | _ => simp at hexit
  shown hexit hcheck hnone := by
    refine ⟨h.untouched (Or.inr (Or.inr hnone)), ?_⟩
    cases h with
    | printed hfile hsource _ hparse hprints _ =>
      exact ⟨_, _, _, _, hfile, hsource, hparse, hprints, finishOutput_withOneFeed _⟩
    | checked _ _ hchecked => simp [hchecked] at hcheck
    | written _ _ _ _ _ houtput _ _ => simp [houtput] at hnone
    | _ => simp at hexit
  exit_two_iff := h.exit_two_iff
  exit_one_iff := h.exit_one_iff
  exit_le_two := h.exit_le_two

end

/-- The command line does all that it was asked for or nothing, whatever reads its
arguments and settings and whatever holds its files. A run that fails or only checks
leaves every file as it was; a run that succeeds leaves what it has printed in the
one file it was told to write, or as its output. The exit code tells a text that
does not parse from everything else that can fail, whether the text is checked or
formatted. -/
theorem execute_all_or_nothing (libraries : Libraries) (system : FileSystem)
    (hsystem : system.Lawful) (hencode : ∀ tree, ∃ text, libraries.encodeTree tree = .ok text)
    (files : system.State) (stdin : Except FileFault ByteArray) (colored : Bool)
    (args : List String) (arguments : Arguments)
    (h : libraries.readArguments args = .ok (.run arguments)) :
    AllOrNothing ⟨libraries, system, files, stdin, arguments⟩
        (runOver libraries system files stdin colored args).1
        (runOver libraries system files stdin colored args).2 ∧
      ∀ args' check' output',
        libraries.readArguments args'
            = .ok (.run { arguments with check := check', output := output' }) →
        ((runOver libraries system files stdin colored args).1.exit = 1 ↔
          (runOver libraries system files stdin colored args').1.exit = 1) := by
  let situation : Situation := ⟨libraries, system, files, stdin, arguments⟩
  have hconcludes := @runOver_concludes situation colored args hsystem hencode h
  refine ⟨hconcludes.allOrNothing hsystem, ?_⟩
  intro args' check' output' h'
  let other : Situation := ⟨libraries, system, files, stdin,
    { arguments with check := check', output := output' }⟩
  have hother := @runOver_concludes other colored args' hsystem hencode h'
  exact hconcludes.exit_one_iff.trans hother.exit_one_iff.symm

/-- One file formatted into another on a disk. -/
theorem execute_all_or_nothing_new_file :
    let disk := Disk.holding ["home"] [("a", "x\n\n".toUTF8)]
    let arguments : Arguments := { input := some "a", output := some "b" }
    let situation : Situation := ⟨.own, diskSystem, disk, .ok .empty, arguments⟩
    let ended := runOver .own diskSystem disk (.ok .empty) false ["-o", "b", "a"]
    readArguments ["-o", "b", "a"] = .ok (.run arguments) ∧ ended.1.exit = 0 ∧
      ∃ text, situation.Renders text ∧ situation.OnlyFile ended.2 "b" text.toUTF8 := by
  intro disk arguments situation ended
  have hread : readArguments ["-o", "b", "a"] = .ok (.run arguments) := by
    simp [readArguments, readFrom, readFrom.follow, readLetters, Flag.ofShort?, isFlag,
      Arguments.withOption, once, Arguments.withInput, conclude, bind, Except.bind, pure,
      Except.pure, arguments]
  have hall := (execute_all_or_nothing .own diskSystem Disk.lawful_diskSystem
    (fun tree => ⟨_, rfl⟩) disk (.ok .empty) false _ arguments hread).1
  -- no step fails, so only the exit code 0 is left
  have hfile : situation.Settled {} := ⟨rfl, by decide⟩
  have hsource : situation.InputRead "x\n\n" := ⟨_, rfl, by decide⟩
  have hparse : parseNormalized "x\n\n" = .ok (.list [.string "x", .parbreak]) := by
    unfold parseNormalized parse readDocument
    rw [readDocumentBy_cached]
    rfl
  have hone : ended.1.exit ≠ 1 := by
    intro hexit
    obtain ⟨error, herror⟩ := (sourceRejected_iff hfile hsource).1 (hall.exit_one_iff.1 hexit)
    rw [hparse] at herror
    cases herror
  have htwo : ended.1.exit ≠ 2 := by
    intro hexit
    obtain ⟨-, -, path, fault, -, hpath, hfault⟩ :=
      (stepFails_iff hfile hsource).1 (hall.exit_two_iff.1 hexit)
    obtain rfl : "b" = path := Option.some.inj hpath
    cases hfault
  have hexit : ended.1.exit = 0 := by
    have hle : ended.1.exit ≤ 2 := hall.exit_le_two
    omega
  exact ⟨hread, hexit, (hall.written hexit rfl "b" rfl).2⟩

end LatexFormatter.CommandLine
