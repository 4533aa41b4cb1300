import SetupForms.Command.Run

/-!
# The program

Reads the files that the arguments name, runs the command on them and prints what it says. Settings
files are JSON documents.

This is the only part that touches the world. The files are read beforehand, since which ones will
be needed can be told from the arguments.
-/

open SetupForms Command

/-- Why a file cannot be read, in the words of the system. -/
def ioErrorText : IO.Error → String
  | .noFileOrDirectory .. => "No such file or directory (os error 2)"
  | .permissionDenied .. => "Permission denied (os error 13)"
  | .inappropriateType .. => "Is a directory (os error 21)"
  | e => toString e

/-- The bytes of a file, or why it cannot be read. -/
def readBytes (path : String) : IO (Except String (Array UInt8)) := do
  try
    let bytes ← IO.FS.readBinFile path
    return .ok bytes.data
  catch e =>
    return .error (ioErrorText e)

/-- Runs the command with its arguments. -/
def main (arguments : List String) : IO UInt32 := do
  let contents ← (Command.paths arguments).mapM fun path => do
    return (path, ← readBytes path)
  let files : Files := fun path => (contents.lookup path).getD (.error "not read")
  let outcome := run files arguments Settings.ofText?
  IO.print outcome.stdout
  IO.eprint outcome.stderr
  return UInt32.ofNat outcome.status
