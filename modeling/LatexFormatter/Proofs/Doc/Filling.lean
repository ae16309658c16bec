import LatexFormatter.Proofs.Doc.Wide
import LatexFormatter.Proofs.Printing.Prose

/-
  Filling lines with words, at any width. `Prints` follows the layout of
  documents without groups and indentation, whose text depends on the column and
  the output alone; it has one rule for each kind of command. The column counts
  characters that have been written, so it is never cut. Looking ahead over a word, a
  space and the next word succeeds exactly if they have room, so a fill of words
  is wrapped greedily, whatever the width (`prints_fillOf`).
-/

namespace LatexFormatter.Doc

/-! ## Following the machine -/

/-- The machine in the middle of a text without cursors. -/
abbrev Machine.midway (column : Nat) (out : List Char) (commands : List Command)
    (remeasure : Bool) : Machine :=
  { column := column, tail := out, commands := commands, remeasure := remeasure }

/-- From this column and output, the commands lead to the given output, whether
or not a group is to be measured again. The column is one that the output can
have come to. -/
def Prints (options : LayoutOptions) (column : Nat) (out : List Char) (commands : List Command)
    (final : List Char) : Prop :=
  column ≤ out.length →
    ∀ remeasure, ((Machine.midway column out commands remeasure).run options).out = final

section Prints

variable {options : LayoutOptions} {column : Nat} {out final : List Char} {rest : List Command}
  {indentation : Indentation} {flow : Flow}

theorem prints_nil : Prints options column out [] out := by
  intro _ remeasure
  rw [Machine.run]
  simp [Machine.step, Machine.out]

/-- What a command prints is known from where it leads to. -/
theorem Prints.of_execute {command : Command} {column' : Nat} {out' : List Char}
    {rest' : List Command} (hp : Prints options column' out' rest' final)
    (hcolumn : column ≤ out.length → column' ≤ out'.length)
    (h : column ≤ out.length → ∀ remeasure, ∃ remeasure',
      (Machine.midway column out rest remeasure).execute options command
        = Machine.midway column' out' rest' remeasure') :
    Prints options column out (command :: rest) final := by
  intro hle remeasure
  obtain ⟨remeasure', hexecute⟩ := h hle remeasure
  have hstep : (Machine.midway column out (command :: rest) remeasure).step options
      = some (Machine.midway column' out' rest' remeasure') := by
    show some ((Machine.midway column out rest remeasure).execute options command).settle = _
    rw [hexecute, Machine.settle_of_suffixes rfl]
  rw [Machine.run_of_step hstep]
  exact hp (hcolumn hle) remeasure'

/-- Text moves the column on by its length. -/
theorem write_midway {content : List Char} (hcontent : '\n' ∉ content) (hle : column ≤ out.length)
    (remeasure : Bool) :
    (Machine.midway column out rest remeasure).write content
      = Machine.midway (column + content.length) (content.reverse ++ out) rest remeasure := by
  have hhold : signedWord (column + content.length) (content.reverse ++ out).length
      = (column + content.length : Nat) :=
    signedWord_of_le (by simp; omega) (by simp; omega)
  simp only [Machine.write, List.contains_eq_mem, hcontent, decide_false, Bool.false_eq_true,
    if_false, Machine.hold, Machine.out, List.append_nil, hhold]

theorem prints_chars {content : List Char} (hcontent : '\n' ∉ content)
    (hp : Prints options (column + content.length) (content.reverse ++ out) rest final) :
    Prints options column out (⟨indentation, flow, chars content⟩ :: rest) final := by
  refine hp.of_execute ?_ fun hle remeasure => ⟨remeasure, ?_⟩
  · intro hle
    simp only [List.length_append, List.length_reverse]
    omega
  · simpa [Machine.execute, Doc.chars] using write_midway hcontent hle remeasure

theorem prints_concat {parts : List Doc}
    (hp : Prints options column out (Command.all indentation flow parts ++ rest) final) :
    Prints options column out (⟨indentation, flow, concat parts⟩ :: rest) final :=
  hp.of_execute id fun _ remeasure => ⟨remeasure, rfl⟩

theorem prints_breakParent (hp : Prints options column out rest final) :
    Prints options column out (⟨indentation, flow, .breakParent⟩ :: rest) final :=
  hp.of_execute id fun _ remeasure => ⟨remeasure, rfl⟩

/-- A line break without indentation. -/
theorem prints_hardline (hp : Prints options 0 ('\n' :: out.dropWhile isSpace) rest final) :
    Prints options column out (⟨{}, flow, hardline⟩ :: rest) final := by
  have hafter : Prints options 0 ('\n' :: out.dropWhile isSpace)
      (⟨{}, flow, .breakParent⟩ :: rest) final := prints_breakParent hp
  refine prints_concat (hafter.of_execute (fun _ => Nat.zero_le _) fun _ remeasure => ?_)
  cases flow with
  | broken => exact ⟨remeasure, rfl⟩
  | flat => exact ⟨true, rfl⟩

/-- A space that is passed over. -/
theorem prints_space_flat (hp : Prints options (column + 1) (' ' :: out) rest final) :
    Prints options column out (⟨indentation, .flat, space⟩ :: rest) final :=
  hp.of_execute Nat.succ_le_succ fun hle remeasure =>
    ⟨remeasure, write_midway (by decide : '\n' ∉ [' ']) hle remeasure⟩

/-- A space that is taken as a line break. -/
theorem prints_space_broken (hp : Prints options 0 ('\n' :: out.dropWhile isSpace) rest final) :
    Prints options column out (⟨{}, .broken, space⟩ :: rest) final :=
  hp.of_execute (fun _ => Nat.zero_le _) fun _ remeasure => ⟨remeasure, rfl⟩

/-- The room that is left in the middle of a text. -/
def roomAt (options : LayoutOptions) (column : Nat) (out : List Char) : Int :=
  (Machine.midway column out [] false).room options

theorem roomAt_eq (hwidth : options.printWidth < signedLimit) (hle : column ≤ out.length) :
    roomAt options column out = options.printWidth - column := by
  rw [roomAt, Machine.room, signed64_of_lt hwidth]
  exact signedWord_of_ge (by simp [Machine.out]; omega) (by dsimp only; omega)

/-- The last piece of a fill. -/
theorem prints_fill_last {content : Doc}
    (hp : ∀ flow, Prints options column out (⟨indentation, flow, content⟩ :: rest) final) :
    Prints options column out (⟨indentation, flow, fill [content]⟩ :: rest) final :=
  (hp (if fits true (roomAt options column out) false 0 [⟨indentation, .flat, content⟩]
    then .flat else .broken)).of_execute id fun _ remeasure => ⟨remeasure, rfl⟩

/-- The first piece of a fill with its separator, which is passed over if there is
room up to the end of the next piece. -/
theorem prints_fill_next {content separator next : Doc} {more : List Doc}
    (hp : ∀ inner, Prints options column out
      (⟨indentation, inner, content⟩
        :: ⟨indentation, if fits true (roomAt options column out) false 0
            [⟨indentation, .flat, concat [content, separator, next]⟩] then .flat else .broken,
          separator⟩
        :: ⟨indentation, flow, fill (next :: more)⟩ :: rest) final) :
    Prints options column out
      (⟨indentation, flow, fill (content :: separator :: next :: more)⟩ :: rest) final :=
  (hp (if fits true (roomAt options column out) false 0
        [⟨indentation, .flat, concat [content, separator, next]⟩]
      || fits true (roomAt options column out) false 0 [⟨indentation, .flat, content⟩]
    then .flat else .broken)).of_execute id fun _ remeasure => ⟨remeasure, rfl⟩

end Prints

/-! ## Looking ahead over words -/

section Fits

variable {width : Int} {trailing : Nat} {rest : List Command} {indentation : Indentation}

theorem fits_nil : fits true width false trailing [] = true ↔ 0 ≤ width := by
  rw [fits.eq_def]
  by_cases h : width < 0
  · simp [h]
  · simp [h]
    omega

theorem fits_chars {content : List Char} (hcontent : '\n' ∉ content) :
    fits true width false trailing (⟨indentation, .flat, chars content⟩ :: rest) = true ↔
      0 ≤ width ∧ fits true (width - content.length) false (trailingBlanks trailing content) rest
        = true := by
  rw [fits.eq_def]
  by_cases h : width < 0
  · simp [h]
  · have hpos : 0 ≤ width := by omega
    simp [h, hpos, chars, hcontent]

theorem fits_concat {parts : List Doc} :
    fits true width false trailing (⟨indentation, .flat, concat parts⟩ :: rest) = true ↔
      0 ≤ width ∧
        fits true width false trailing (Command.all indentation .flat parts ++ rest) = true := by
  rw [fits.eq_def]
  by_cases h : width < 0
  · simp [h]
  · have hpos : 0 ≤ width := by omega
    simp [h, hpos]

theorem fits_space :
    fits true width false trailing (⟨indentation, .flat, space⟩ :: rest) = true ↔
      0 ≤ width ∧ fits true (width - 1) false (trailing + 1) rest = true := by
  rw [fits.eq_def]
  by_cases h : width < 0
  · simp [h]
  · have hpos : 0 ≤ width := by omega
    simp [h, hpos, space]

/-- Nothing behind a hard line counts. -/
theorem fits_hardline :
    fits true width false trailing (⟨indentation, .flat, hardline⟩ :: rest) = true ↔ 0 ≤ width := by
  rw [hardline, fits_concat, fits.eq_def]
  by_cases h : width < 0
  · simp [h]
  · have hpos : 0 ≤ width := by omega
    simp [h, hpos, Command.all]

end Fits

/-! ## Fills of words -/

/-- The pieces and separators for a word and what follows it. Blank lines belong to
the piece before them. -/
def fillOf (word : Word) : Followers → List Doc
  | [] => [concat [chars word.chars]]
  | (.space, next) :: rest => concat [chars word.chars] :: space :: fillOf next rest
  | (.blankLine, next) :: rest =>
    concat [chars word.chars, hardline, hardline] :: empty :: fillOf next rest

theorem fillOf_eq_cons (word : Word) (followers : Followers) :
    ∃ breaks more, fillOf word followers = concat (chars word.chars :: breaks) :: more ∧
      (breaks = [] ∨ breaks = [hardline, hardline]) := by
  cases followers with
  | nil => exact ⟨[], [], rfl, Or.inl rfl⟩
  | cons follower rest =>
    obtain ⟨seam, next⟩ := follower
    cases seam with
    | space => exact ⟨[], _, rfl, Or.inl rfl⟩
    | blankLine => exact ⟨_, _, rfl, Or.inr rfl⟩

/-- A word, a space and the next word fit if there is room for them, whatever the
next piece ends with. -/
theorem fits_words (word next : Word) (width : Int) (indentation : Indentation) {breaks : List Doc}
    (hbreaks : breaks = [] ∨ breaks = [hardline, hardline]) :
    fits true width false 0 [⟨indentation, .flat,
        concat [concat [chars word.chars], space, concat (chars next.chars :: breaks)]⟩] = true ↔
      (word.chars.length + 1 + next.chars.length : Int) ≤ width := by
  rcases hbreaks with rfl | rfl
  · simp only [fits_concat, fits_chars word.newline_notMem, fits_chars next.newline_notMem,
      fits_space, fits_nil, Command.all, List.map_cons, List.map_nil, List.cons_append,
      List.nil_append]
    omega
  · simp only [fits_concat, fits_chars word.newline_notMem, fits_chars next.newline_notMem,
      fits_space, fits_hardline, Command.all, List.map_cons, List.map_nil, List.cons_append,
      List.nil_append]
    omega

/-- A fill of words is wrapped greedily from any column on. -/
theorem prints_fillOf {options : LayoutOptions} (hwidth : options.printWidth < signedLimit)
    (flow : Flow) (column : Nat) (out : List Char) (word : Word) (followers : Followers) :
    Prints options column out [⟨{}, flow, fill (fillOf word followers)⟩]
      ((word.chars ++ followers.filled options.printWidth (column + word.chars.length)).reverse
        ++ out) := by
  -- the words before have been printed; what is left depends on the column only
  induction followers generalizing word column out with
  | nil =>
    apply prints_fill_last
    intro inner
    apply prints_concat
    apply prints_chars word.newline_notMem
    simpa [Followers.filled] using prints_nil
  | cons follower rest ih =>
    obtain ⟨seam, next⟩ := follower
    obtain ⟨breaks, more, hmore, hbreaks⟩ := fillOf_eq_cons next rest
    cases seam with
    | space =>
      rw [fillOf, hmore]
      intro hle
      refine prints_fill_next (fun inner => ?_) hle
      apply prints_concat
      apply prints_chars word.newline_notMem
      have hroom := fits_words word next (options.printWidth - column) {} hbreaks
      rw [roomAt_eq hwidth hle, ← hmore]
      by_cases hfit : column + word.chars.length + 1 + next.chars.length ≤ options.printWidth
      · rw [if_pos (hroom.2 (by omega))]
        apply prints_space_flat
        have hnext := ih (column + word.chars.length + 1) (' ' :: word.chars.reverse ++ out) next
        simpa [Followers.filled, hfit] using hnext
      · rw [if_neg (fun h => hfit (by have := hroom.1 h; omega))]
        apply prints_space_broken
        have hnext := ih 0 ('\n' :: (word.chars.reverse ++ out)) next
        rw [word.dropWhile_reverse_append]
        simpa [Followers.filled, hfit] using hnext
    | blankLine =>
      rw [fillOf, hmore]
      apply prints_fill_next
      intro inner
      apply prints_concat
      apply prints_chars word.newline_notMem
      apply prints_hardline
      apply prints_hardline
      apply prints_concat
      have hnext := ih 0 ('\n' :: '\n' :: (word.chars.reverse ++ out)) next
      rw [← hmore, word.dropWhile_reverse_append]
      simpa [Followers.filled, isSpace, Command.all] using hnext

end LatexFormatter.Doc
