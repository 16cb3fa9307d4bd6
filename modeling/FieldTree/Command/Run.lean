import FieldTree.Blob.Operation
import FieldTree.Command.Arguments
import FieldTree.Files.Basic
import FieldTree.Json.Rendering
import FieldTree.Signature.Matching

/-!
# Running Commands

A command reads one file, and `encode` writes one. What it leaves is an exit code, what it prints, and for a
failure a report with the causes. `encode` has its whole result before it touches the output.

## Architecture

- `Failure`: a report with its causes.
- `encode`, `load`, `writeOutput`: the steps.
- `run`: a whole command line.
-/

namespace FieldTree.Command

/-! ## Failures -/

/-- What went wrong, and why, the nearest cause first. -/
structure Failure where
  context : String
  causes : List String := []
  deriving DecidableEq, Repr

namespace Failure

/-- The lines of a cause, with `indent` blanks in front of all but the first. -/
def hang (indent : Nat) (cause : String) : List Char :=
  cause.toList.flatMap fun c =>
    if c = '\n' then '\n' :: List.replicate indent ' ' else [c]

/-- A cause among several, with its number. -/
def numbered (cause : String) (i : Nat) : List Char :=
  let digits := (toString i).toList
  '\n' :: List.replicate (5 - digits.length) ' ' ++ digits ++ [':', ' '] ++ hang 7 cause

/-- The report. A single cause is not numbered. -/
def text (f : Failure) : String :=
  let causes : List Char :=
    match f.causes with
    | [] => []
    | [cause] => '\n' :: List.replicate 4 ' ' ++ hang 4 cause
    | causes => causes.zipIdx.flatMap fun (cause, i) => numbered cause i
  let heading := if f.causes = [] then "" else "\n\nCaused by:"
  "Error: " ++ f.context ++ heading ++ String.ofList causes ++ "\n"

end Failure

/-- The causes that an error has: itself, and for a faulty JSON text also the fault alone. -/
def causesOf (e : BlobError) : List String :=
  match e with
  | .json fault => [e.message, fault.message]
  | _ => [e.message]

/-! ## Results -/

/-- What a command leaves. -/
structure Result where
  exit : Nat
  stdout : String := ""
  report : Option String := none
  journal : Journal := []
  deriving DecidableEq, Repr

/-- The name and version that the command gives for itself. -/
def versionText (subcommand : Option Subcommand) : String :=
  let suffix := (subcommand.map fun s => "-" ++ s.name).getD ""
  s!"blobpack{suffix} 0.1.0\n"

/-- The result of a command line that asks for nothing to be done. -/
def Stop.result : Stop → Result
  | usage => { exit := 2 }
  | help => { exit := 0 }
  | version subcommand => { exit := 0, stdout := versionText subcommand }

/-- The result of a failure. -/
def Failure.result (f : Failure) (journal : Journal) : Result :=
  { exit := 1, report := some f.text, journal }

/-! ## Steps -/

/-- A step that may fail, with the entries made so far. -/
abbrev Attempt (α : Type) := Except Failure α × Journal

variable {m : Type → Type} [Monad m]

/-- The failure for a file that was not read. -/
def unreadable (path : String) (fault : Files.Fault) : Failure :=
  ⟨s!"Failed to read input file: {path}", [fault.message]⟩

/-- The blob for the JSON text in a file. -/
def encode (files : Files.Access m) (config : Config) (input : String) : m (Attempt Blob) := do
  match ← files.readText input with
  | .error fault => return (.error (unreadable input fault), [])
  | .ok text =>
    match Blob.ofJson config text with
    | (.error e, journal) =>
      return (.error ⟨s!"Failed to encode JSON from {input}", causesOf e⟩, journal)
    | (.ok b, journal) => return (.ok b, journal ++ [b.listingNote])

/-- The blob in a file. -/
def load (files : Files.Access m) (config : Config) (input : String) : m (Attempt Blob) := do
  let start : Journal := [.reading input]
  match ← files.read input with
  | .error fault => return (.error (unreadable input fault), start)
  | .ok data =>
    let entries : Journal := start ++ [.read data.length input]
    match (Origin.adopt config data).make with
    | (.error e, journal) => return (.error ⟨s!"Not a valid blob: {input}", causesOf e⟩, entries ++ journal)
    | (.ok b, journal) => return (.ok b, entries ++ journal)

/-- The failure for a file that was not written. -/
def unwritten (path : String) : Files.WriteFault → Failure
  | .notMade fault => ⟨s!"Failed to create file: {path}", [fault.message]⟩
  | .notFilled fault => ⟨s!"Failed to write file: {path}", [fault.message]⟩

/-- Writes a file, and makes the directories it lies in. A file that is there is replaced only by force. -/
def writeOutput (files : Files.Access m) (path : String) (bytes : Bytes) (force : Bool) :
    m (Except Failure Unit) := do
  let parent := Path.parent path
  match ← files.makeDirectories parent with
  | .error fault => return .error ⟨s!"Failed to create directory: {parent}", [fault.message]⟩
  | .ok () =>
    if !force && (← files.isPresent path) then
      return .error ⟨s!"File already exists: {path} (use --force to overwrite)", []⟩
    else
      match ← files.write path bytes with
      | .error fault => return .error (unwritten path fault)
      | .ok () => return .ok ()

/-! ## Commands -/

/-- What is shown of a blob, or why it cannot be shown. -/
def display (b : Blob) : Action → Result
  | .encode .. => { exit := 0 }
  | .decode _ pretty =>
    let text := if pretty then b.head.toPrettyJson else b.head.toJson
    { exit := 0, stdout := text ++ "\n" }
  | .dump _ => { exit := 0, stdout := b.head.dump }
  | .validate _ signature =>
    match Signature.parse signature with
    | .error e => Failure.result ⟨"Invalid signature", causesOf e⟩ []
    | .ok _ =>
      let journal := b.head.validationNotes signature
      if b.head.validate signature then { exit := 0, stdout := "ok\n", journal }
      else { exit := 1, stdout := "mismatch\n", journal }

/-- Reads the blob that an action is about and shows it. -/
def inspect (files : Files.Access m) (config : Config) (input : String) (action : Action) :
    m Result := do
  match ← load files config input with
  | (.error failure, journal) => return failure.result journal
  | (.ok b, journal) =>
    let result := display b action
    return { result with journal := journal ++ result.journal }

/-- Carries out an action. -/
def perform (files : Files.Access m) (config : Config) (action : Action) : m Result := do
  match action with
  | .encode input output force =>
    let output := output.getD (Path.withExtension input "blob")
    match ← encode files config input with
    | (.error failure, journal) => return failure.result journal
    | (.ok b, journal) =>
      match ← writeOutput files output b.content force with
      | .error failure => return failure.result journal
      | .ok () =>
        return { exit := 0, journal := journal ++ [.wroteFile b.content.length output] }
  | .decode input _ => inspect files config input action
  | .dump input => inspect files config input action
  | .validate input _ => inspect files config input action

/-- Carries out a command line. -/
def run (files : Files.Access m) (arguments : List String) : m Result :=
  match Arguments.read arguments with
  | .error stop => pure stop.result
  | .ok invocation => perform files { maxSize := invocation.maxSize } invocation.action

end FieldTree.Command
