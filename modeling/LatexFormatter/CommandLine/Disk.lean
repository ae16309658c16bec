import LatexFormatter.CommandLine.FileSystem
import LatexFormatter.CommandLine.Libraries

/-
  A tree of files as a value, with a directory in it that relative paths start
  in. It is a file system to run the command line on without touching anything
  outside, and tells what a run has changed. A path is followed name by name: every
  name but the last has to be that of a directory, also where the path goes up again
  afterwards.
-/

namespace LatexFormatter.CommandLine

/-- Files by the names on the way to them from the top. A directory exists if a
file lies in it, or the home directory does. -/
structure Disk where
  /-- The directory that relative paths start in. -/
  home : List String := []
  files : List (List String × ByteArray) := []

namespace Disk

/-! ## Paths -/

/-- How many bytes a name may have. -/
def nameLimit : Nat := 255

/-- How many bytes a path may have. -/
def pathLimit : Nat := 4095

/-- What stands between the slashes of a path. -/
def segments : List Char → List (List Char)
  | [] => [[]]
  | '/' :: cs => [] :: segments cs
  | c :: cs => (c :: (segments cs).headD []) :: (segments cs).tail

/-- The names in a path. Slashes only divide them, however many there are. -/
def names (path : String) : List String :=
  ((segments path.toList).filter (!·.isEmpty)).map String.ofList

/-- Whether a path starts at the top. -/
def isAbsolute (path : String) : Bool := path.toList.head? == some '/'

/-- Whether a path can only mean a directory. -/
def asksForDirectory (path : String) : Bool := path.toList.getLast? == some '/'

/-- Refuses what no path can be. -/
def checkPath (path : String) : Except FileFault Unit :=
  if path.isEmpty then .error .notFound
  else if pathLimit < path.utf8ByteSize then .error .nameTooLong
  else .ok ()

/-! ## Files and directories -/

/-- A home directory with files in and below it, given by their paths. -/
def holding (home : List String) (files : List (String × ByteArray)) : Disk where
  home := home
  files := files.map fun (path, content) => (home ++ names path, content)

/-- The content of a file. -/
def get? (disk : Disk) (place : List String) : Option ByteArray := disk.files.lookup place

/-- Whether there is a directory. -/
def isDirectory (disk : Disk) (place : List String) : Bool :=
  place.isPrefixOf disk.home
    || disk.files.any fun (file, _) => place.isPrefixOf file && file != place

/-- Sets the content of a file. -/
def put (disk : Disk) (place : List String) (content : ByteArray) : Disk :=
  { disk with files := (place, content) :: disk.files.filter (·.1 != place) }

/-! ## Following a path -/

/-- Goes from a directory to what a name in it means. A point is the directory
itself, two points are the one above. -/
def enter (disk : Disk) (place : List String) (name : String) : Except FileFault (List String) :=
  if !disk.isDirectory place then .error .notADirectory
  else if name == "." then .ok place
  else if name == ".." then .ok place.dropLast
  else if nameLimit < name.utf8ByteSize then .error .nameTooLong
  else if disk.isDirectory (place ++ [name]) || (disk.get? (place ++ [name])).isSome then
    .ok (place ++ [name])
  else .error .notFound

/-- Where a path starts. -/
def start (disk : Disk) (path : String) : List String :=
  if isAbsolute path then [] else disk.home

/-- Follows names from a place. -/
def follow (disk : Disk) (place : List String) (names : List String) :
    Except FileFault (List String) :=
  names.foldlM disk.enter place

/-- Reads a file. -/
def read (disk : Disk) (path : String) : Except FileFault ByteArray := do
  checkPath path
  let place ← disk.follow (disk.start path) (names path)
  if disk.isDirectory place then .error .isADirectory
  else if asksForDirectory path then .error .notADirectory
  else match disk.get? place with
    | some content => .ok content
    | none => .error .notFound

/-- Where writing to a path puts a file. The directory has to exist, and the last
name has to be one that a file can have. -/
def target (disk : Disk) (path : String) : Except FileFault (List String) := do
  checkPath path
  let directory ← disk.follow (disk.start path) (names path).dropLast
  let name := (names path).getLastD "."
  if !disk.isDirectory directory then .error .notADirectory
  else if name == "." || name == ".." || asksForDirectory path then .error .isADirectory
  else if nameLimit < name.utf8ByteSize then .error .nameTooLong
  else if disk.isDirectory (directory ++ [name]) then .error .isADirectory
  else .ok (directory ++ [name])

/-- Opens a file for writing. -/
def create (disk : Disk) (path : String) : Except FileFault (List String × Disk) := do
  let place ← disk.target path
  return (place, disk.put place .empty)

/-- Writes to the end of a file. -/
def append (disk : Disk) (place : List String) (bytes : ByteArray) : Disk :=
  disk.put place ((disk.get? place).getD .empty ++ bytes)

end Disk

/-- Disks as a file system. -/
def diskSystem : FileSystem where
  State := Disk
  Place := List String
  content := Disk.get?
  read := Disk.read
  create := Disk.create
  append disk place bytes := .ok (disk.append place bytes)

/-- Runs the command line on a disk: how it ends, and the disk afterwards. -/
def runOn (disk : Disk) (input : ByteArray) (arguments : List String) : Outcome × Disk :=
  runOver .own diskSystem disk (.ok input) false arguments

end LatexFormatter.CommandLine
