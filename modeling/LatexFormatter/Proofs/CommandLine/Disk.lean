import LatexFormatter.CommandLine.Disk
import Mathlib.Data.List.Basic

/-
  What writing does to a disk. A file that is set is read back, and every other
  file stays as it is. No file and no directory goes away, so a path that leads
  somewhere leads there afterwards too; in particular the path that was written
  to now leads to the file (`read_put`). So disks are a file system as a run relies
  on it (`lawful_diskSystem`).
-/

namespace LatexFormatter.CommandLine.Disk

variable {disk : Disk} {place other : List String} {content : ByteArray}

/-! ## Files -/

theorem get?_put_self : (disk.put place content).get? place = some content := by
  simp [get?, put]

theorem lookup_filter_of_ne {files : List (List String × ByteArray)} (h : other ≠ place) :
    (files.filter (·.1 != place)).lookup other = files.lookup other := by
  induction files with
  | nil => rfl
  | cons file files ih =>
    obtain ⟨held, stored⟩ := file
    by_cases hheld : held = place
    · subst hheld
      have hother : (other == held) = false := by simp [h]
      simp only [List.filter_cons, bne_self_eq_false, Bool.false_eq_true, if_false,
        List.lookup_cons, hother, ih]
    · simp only [List.filter_cons, bne_iff_ne, ne_eq, hheld, not_false_eq_true, if_true,
        List.lookup_cons, ih]

theorem get?_put_of_ne (h : other ≠ place) :
    (disk.put place content).get? other = disk.get? other := by
  have hother : (other == place) = false := by simp [h]
  simp only [get?, put, List.lookup_cons, hother, lookup_filter_of_ne h]

theorem isSome_get?_put (h : (disk.get? other).isSome) :
    ((disk.put place content).get? other).isSome := by
  by_cases hother : other = place
  · rw [hother, get?_put_self, Option.isSome_some]
  · rwa [get?_put_of_ne hother]

/-! ## Directories -/

/-- A directory is one that there was, or one on the way to the file. -/
theorem isDirectory_put_iff :
    (disk.put place content).isDirectory other = true
      ↔ disk.isDirectory other = true ∨ other <+: place ∧ place ≠ other := by
  simp only [isDirectory, put, List.any_cons, Bool.or_eq_true, Bool.and_eq_true,
    List.isPrefixOf_iff_prefix, bne_iff_ne, List.any_eq_true, List.mem_filter]
  constructor
  · rintro (hhome | hplace | ⟨file, ⟨hmem, -⟩, hfile⟩)
    · exact Or.inl (Or.inl hhome)
    · exact Or.inr hplace
    · exact Or.inl (Or.inr ⟨file, hmem, hfile⟩)
  · rintro ((hhome | ⟨file, hmem, hfile⟩) | hplace)
    · exact Or.inl hhome
    · -- the file that is replaced lies in the same directories as the new one
      by_cases hsame : file.1 = place
      · exact Or.inr (Or.inl (hsame ▸ hfile))
      · exact Or.inr (Or.inr ⟨file, ⟨hmem, hsame⟩, hfile⟩)
    · exact Or.inr (Or.inl hplace)

theorem isDirectory_put (h : disk.isDirectory other = true) :
    (disk.put place content).isDirectory other = true :=
  isDirectory_put_iff.2 (Or.inl h)

/-! ## Paths -/

/-- Where a name leads from a directory. -/
theorem enter_eq_ok_iff {name : String} {next : List String} :
    disk.enter other name = .ok next ↔ disk.isDirectory other = true ∧
      (name = "." ∧ next = other ∨ name = ".." ∧ next = other.dropLast ∨
        name ≠ "." ∧ name ≠ ".." ∧ name.utf8ByteSize ≤ nameLimit ∧
          (disk.isDirectory (other ++ [name]) = true ∨ (disk.get? (other ++ [name])).isSome) ∧
          next = other ++ [name]) := by
  simp only [enter, beq_iff_eq, Bool.not_eq_true', Bool.or_eq_true]
  grind

theorem enter_put {name : String} {next : List String} (h : disk.enter other name = .ok next) :
    (disk.put place content).enter other name = .ok next := by
  obtain ⟨hdirectory, hnext⟩ := enter_eq_ok_iff.1 h
  refine enter_eq_ok_iff.2 ⟨isDirectory_put hdirectory, ?_⟩
  rcases hnext with hpoint | hpoints | ⟨hpoint, hpoints, hshort, hfound, hnext⟩
  · exact Or.inl hpoint
  · exact Or.inr (Or.inl hpoints)
  · exact Or.inr (Or.inr
      ⟨hpoint, hpoints, hshort, hfound.imp isDirectory_put isSome_get?_put, hnext⟩)

theorem follow_put {names : List String} {next : List String}
    (h : disk.follow other names = .ok next) :
    (disk.put place content).follow other names = .ok next := by
  induction names generalizing other with
  | nil => exact h
  | cons name names ih =>
    simp only [follow, List.foldlM_cons] at h ⊢
    cases hfirst : disk.enter other name with
    | error fault => rw [hfirst] at h; cases h
    | ok between =>
      rw [hfirst] at h
      rw [enter_put hfirst]
      exact ih h

theorem follow_concat {names : List String} {name : String} {between : List String}
    (h : disk.follow other names = .ok between) :
    disk.follow other (names ++ [name]) = disk.enter between name := by
  unfold follow at h ⊢
  rw [List.foldlM_append, h]
  simp only [List.foldlM_cons, List.foldlM_nil, bind_pure]
  rfl

/-- What a path that can be written to is like: it leads to a directory, and from
there on by a name that a file can have. -/
theorem target_eq_ok {path : String} (h : disk.target path = .ok place) :
    ∃ front name directory, names path = front ++ [name] ∧ checkPath path = .ok () ∧
      asksForDirectory path = false ∧ disk.follow (disk.start path) front = .ok directory ∧
      disk.isDirectory directory = true ∧ name ≠ "." ∧ name ≠ ".." ∧
      name.utf8ByteSize ≤ nameLimit ∧ disk.isDirectory place = false ∧
      place = directory ++ [name] := by
  unfold target at h
  cases hpath : checkPath path with
  | error fault => rw [hpath] at h; cases h
  | ok _ =>
    cases hfollow : disk.follow (disk.start path) (names path).dropLast with
    | error fault => rw [hpath, hfollow] at h; cases h
    | ok directory =>
      rw [hpath, hfollow] at h
      change (if _ then _ else _) = _ at h
      rcases List.eq_nil_or_concat' (names path) with hnames | ⟨front, name, hnames⟩
      · -- no name at all means the directory itself
        rw [hnames] at h
        grind
      · rw [hnames] at h hfollow
        refine ⟨front, name, directory, hnames, rfl, ?_⟩
        simp only [List.dropLast_concat, List.getLastD_concat] at h hfollow
        grind

/-- What is written to a path is read from it. -/
theorem read_put {path : String} (h : disk.target path = .ok place) :
    (disk.put place content).read path = .ok content := by
  obtain ⟨front, name, directory, hnames, hpath, hasks, hfollow, hdirectory, hpoint, hpoints,
    hshort, hfree, hplace⟩ := target_eq_ok h
  have henter : (disk.put place content).enter directory name = .ok place :=
    enter_eq_ok_iff.2 ⟨isDirectory_put hdirectory,
      Or.inr (Or.inr ⟨hpoint, hpoints, hshort, Or.inr (by simp [← hplace, get?_put_self]), hplace⟩)⟩
  have hreached : (disk.put place content).follow (disk.start path) (names path) = .ok place := by
    rw [hnames, follow_concat (follow_put hfollow), henter]
  have hstill : (disk.put place content).isDirectory place = false := by
    rw [Bool.eq_false_iff, ne_eq, isDirectory_put_iff]
    simp [hfree]
  unfold read
  rw [hpath, show (disk.put place content).start path = disk.start path from rfl, hreached]
  change (if _ then _ else _) = _
  simp only [hstill, hasks, get?_put_self, Bool.false_eq_true, if_false]

/-! ## Disks as a file system -/

theorem create_eq_ok_iff {path : String} {opened : Disk} :
    disk.create path = .ok (place, opened)
      ↔ disk.target path = .ok place ∧ opened = disk.put place .empty := by
  unfold create
  cases disk.target path with
  | error fault => simp [bind, Except.bind]
  | ok target =>
    simp only [bind, Except.bind, pure, Except.pure, Except.ok.injEq, Prod.mk.injEq]
    grind

theorem lawful_diskSystem : diskSystem.Lawful where
  content_create h := by
    obtain ⟨-, rfl⟩ := create_eq_ok_iff.1 h
    exact get?_put_self
  content_create_of_ne h hne := by
    obtain ⟨-, rfl⟩ := create_eq_ok_iff.1 h
    exact get?_put_of_ne hne
  append_create _ bytes := ⟨_, rfl⟩
  content_append h hbefore := by
    obtain rfl := Except.ok.inj h
    refine get?_put_self.trans ?_
    rw [show get? _ _ = some _ from hbefore, Option.getD_some]
  content_append_of_ne h hne := by
    obtain rfl := Except.ok.inj h
    exact get?_put_of_ne hne

end LatexFormatter.CommandLine.Disk
