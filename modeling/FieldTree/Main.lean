import FieldTree.Command.Run

/-!
# The Command

Runs the command line on the disk. All decisions are taken in `FieldTree.Command`; here are only the
operations on files, the printing and the exit code.
-/

namespace FieldTree

/-- The fault that an error of the operating system stands for. -/
def faultOf : IO.Error → Files.Fault
  | .noFileOrDirectory .. => .notFound
  | .inappropriateType _ 21 _ => .isDirectory
  | .inappropriateType _ 20 _ => .notDirectory
  | .alreadyExists .. => .alreadyExists
  | .invalidArgument _ 36 _ => .nameTooLong
  | e => .other (toString e)

/-- An action on the disk with its fault as a value. -/
def attempt {α : Type} (action : IO α) : IO (Except Files.Fault α) := do
  match ← action.toBaseIO with
  | .ok a => return .ok a
  | .error e => return .error (faultOf e)

/-- A path as an entry of the disk. -/
def entryAt (path : String) : IO.FS.DirEntry := { root := path, fileName := "" }

/-- Fails if a path names a directory. -/
def refuseDirectory (path : String) : IO Unit := do
  if ← (entryAt path).root.isDir then
    throw (.inappropriateType (some path) 21 "is a directory")

/-- Makes a file, or takes away what is in it. -/
def openToWrite (path : String) : IO IO.FS.Handle := do
  refuseDirectory path
  IO.FS.Handle.mk path .write

/-- Puts bytes into a file. They are on the disk, or have failed to get there, before this ends. -/
def fill (file : IO.FS.Handle) (bytes : Bytes) : IO Unit := do
  file.write ⟨bytes.toArray⟩
  file.flush

/-- The operations on files, on the disk. -/
def disk : Files.Access IO where
  read path := attempt do
    refuseDirectory path
    return (← IO.FS.readBinFile path).data.toList
  isPresent path := (entryAt path).root.pathExists
  isDirectory path := (entryAt path).root.isDir
  makeDirectory path := attempt (IO.FS.createDir path)
  write path bytes := do
    match ← attempt (openToWrite path) with
    | .error fault => return .error (.notMade fault)
    | .ok file => return (← attempt (fill file bytes)).mapError .notFilled

/-- Whether an entry is shown at a verbosity. -/
def isShown (verbosity : Nat) : Journal.Level → Bool
  | .warn => true
  | .info => 1 ≤ verbosity
  | .debug => 2 ≤ verbosity
  | .trace => 3 ≤ verbosity

end FieldTree

open FieldTree in
def main (arguments : List String) : IO UInt32 := do
  let verbosity := ((Command.Arguments.read arguments).toOption.map (·.verbosity)).getD 0
  let result ← Command.run disk arguments
  for entry in result.journal do
    if isShown verbosity entry.level then IO.eprintln entry.text
  IO.print result.stdout
  IO.eprint (result.report.getD "")
  return result.exit.toUInt32
