import LatexFormatter.CommandLine.Libraries

/-
  The program: the command line on the files and streams of the system.
-/

open LatexFormatter LatexFormatter.CommandLine

/-- The fault behind a failure of the system. -/
def faultOfSystem : IO.Error → FileFault
  | .noFileOrDirectory _ _ _ => .notFound
  | .permissionDenied _ _ _ => .permissionDenied
  | .inappropriateType _ code detail =>
    if code == 21 then .isADirectory
    else if code == 20 then .notADirectory
    else .other s!"{detail} (os error {code})"
  | .invalidArgument _ code detail =>
    if code == 36 then .nameTooLong else .other s!"{detail} (os error {code})"
  | error => .other (toString error)

/-- Turns a failure of the system into a fault. -/
def attempt {α : Type} (action : IO α) : IO (Except FileFault α) := do
  match ← action.toBaseIO with
  | .ok value => return .ok value
  | .error error => return .error (faultOfSystem error)

/-- The files and streams of the system. -/
def systemHost : Host IO where
  Handle := IO.FS.Handle
  readFile path := attempt (IO.FS.readBinFile path)
  readInput := attempt do (← IO.getStdin).readBinToEnd
  createFile path := attempt (IO.FS.Handle.mk path .write)
  writeAll file content := attempt do
    file.write content
    file.flush

def main (arguments : List String) : IO UInt32 := do
  let output ← IO.getStdout
  let outcome ← execute .own systemHost (← output.isTty) arguments
  output.putStr outcome.output
  output.flush
  (← IO.getStderr).putStr outcome.message.text
  return outcome.exit.toUInt32
