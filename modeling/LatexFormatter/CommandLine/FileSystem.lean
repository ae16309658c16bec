import LatexFormatter.CommandLine.Run

/-
  File systems as hosts of runs. What a run can do to files is read them, open one
  for writing and write to it; the state of all files is passed on from step to
  step. Reading, and opening that fails, change nothing: that much is in the types.
  What else is relied on is `FileSystem.Lawful`.
-/

namespace LatexFormatter.CommandLine

/-- A file system, as far as a run can tell. -/
structure FileSystem where
  /-- What all files hold at one time. -/
  State : Type
  /-- Where files lie. -/
  Place : Type
  /-- The content of the file at a place, if there is one. -/
  content : State → Place → Option ByteArray
  /-- Reads the file that a path leads to. -/
  read : State → String → Except FileFault ByteArray
  /-- Opens a file for writing: where it lies, and the files afterwards. -/
  create : State → String → Except FileFault (Place × State)
  /-- Writes to the end of a file that is open. -/
  append : State → Place → ByteArray → Except FileFault State

namespace FileSystem

/-- How opening and writing work. A file that has been opened is there and is empty,
and what is written to it goes to its end; neither touches any other file. Writing
to a file that has just been opened succeeds. -/
structure Lawful (system : FileSystem) : Prop where
  content_create {files opened : system.State} {path : String} {place : system.Place} :
    system.create files path = .ok (place, opened) → system.content opened place = some .empty
  content_create_of_ne {files opened : system.State} {path : String}
    {place other : system.Place} :
    system.create files path = .ok (place, opened) → other ≠ place →
      system.content opened other = system.content files other
  append_create {files opened : system.State} {path : String} {place : system.Place} :
    system.create files path = .ok (place, opened) →
      ∀ bytes, ∃ after, system.append opened place bytes = .ok after
  content_append {files after : system.State} {place : system.Place} {before bytes : ByteArray} :
    system.append files place bytes = .ok after → system.content files place = some before →
      system.content after place = some (before ++ bytes)
  content_append_of_ne {files after : system.State} {place other : system.Place}
    {bytes : ByteArray} :
    system.append files place bytes = .ok after → other ≠ place →
      system.content after other = system.content files other

/-- The host of a run on a file system, given what reading its input comes to. -/
def host (system : FileSystem) (input : Except FileFault ByteArray) :
    Host (StateM system.State) where
  Handle := system.Place
  readFile path := do return system.read (← get) path
  readInput := pure input
  createFile path := do
    match system.create (← get) path with
    | .ok (place, files) =>
      set files
      return .ok place
    | .error fault => return .error fault
  writeAll place bytes := do
    match system.append (← get) place bytes with
    | .ok files =>
      set files
      return .ok ()
    | .error fault => return .error fault

end FileSystem

/-- Runs the command line on a file system: how it ends, and the files
afterwards. -/
def runOver (libraries : Libraries) (system : FileSystem) (files : system.State)
    (input : Except FileFault ByteArray) (colored : Bool) (arguments : List String) :
    Outcome × system.State :=
  (execute libraries (system.host input) colored arguments).run files

end LatexFormatter.CommandLine
