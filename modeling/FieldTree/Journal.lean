import FieldTree.Error
import FieldTree.Field.Basic

/-!
# The Journal

Operations on blobs note what they do. An entry is a value of `Journal.Entry`; its wording and its level
are functions on that type.
-/

namespace FieldTree.Journal

/-- How important an entry is. -/
inductive Level where
  | trace
  | debug
  | info
  | warn
  deriving DecidableEq, Repr

def Level.name : Level → String
  | trace => "TRACE"
  | debug => "DEBUG"
  | info => "INFO"
  | warn => "WARN"

/-- What happened. -/
inductive Entry where
  /-- a field of the given payload size was written at an offset -/
  | wrote (type : FieldType) (payload offset : Nat)
  /-- the buffer was enlarged -/
  | growing (before after : Nat)
  /-- bytes became a blob -/
  | adopted (supplied extent : Nat)
  /-- a blob of the given capacity was emptied -/
  | resetting (capacity : Nat)
  /-- a container was to be closed that lies outside the content -/
  | ignoredClose (offset extent : Nat)
  /-- a JSON text became a blob -/
  | decoded (text size : Nat)
  /-- what a faulty JSON text had written was removed -/
  | rollingBack (size : Nat) (fault : Json.Fault)
  /-- a field does not have the children that a signature asks for -/
  | mismatch (field : Field) (signature : String)
  /-- a text is not a signature -/
  | rejected (error : BlobError)
  /-- a value does not have the type that its policy asks for -/
  | refusedValue (name : String) (type : FieldType)
  /-- the whole content, as a listing -/
  | content (size : Nat) (listing : String)
  /-- a file is about to be read -/
  | reading (path : String)
  /-- a file was read -/
  | read (bytes : Nat) (path : String)
  /-- a file was written -/
  | wroteFile (bytes : Nat) (path : String)
  deriving DecidableEq, Repr

namespace Entry

def level : Entry → Level
  | growing .. | adopted .. | decoded .. | read .. => .debug
  | wroteFile .. => .info
  | ignoredClose .. => .warn
  | _ => .trace

def message : Entry → String
  | wrote type payload offset =>
    s!"Wrote {type.name} field ({payload} payload bytes) at offset {offset}"
  | growing before after => s!"Growing blob from {before} to {after} bytes"
  | adopted supplied extent => s!"Adopted {supplied} byte blob ({extent} bytes of content)"
  | resetting capacity => s!"Resetting blob ({capacity} bytes allocated)"
  | ignoredClose offset extent =>
    s!"Ignoring close of container at offset {offset} outside content of {extent} bytes"
  | decoded text size => s!"Decoded {text} bytes of JSON into a {size} byte blob"
  | rollingBack size fault => s!"Rolling back JSON decode to {size} bytes: {fault.message}"
  | mismatch field signature => s!"Field {field.debugText} does not match signature '{signature}'"
  | rejected error => s!"Rejecting signature: {error.message}"
  | refusedValue name type => s!"Policy '{name}' rejects {type.name} value"
  | content size listing => s!"Blob content ({size} bytes):\n{listing}"
  | reading path => s!"Reading {path}"
  | read bytes path => s!"Read {bytes} bytes from {path}"
  | wroteFile bytes path => s!"Wrote {bytes} bytes to {path}"

/-- Level and message. -/
def text (e : Entry) : String := s!"{e.level.name} {e.message}"

end Entry

end FieldTree.Journal

namespace FieldTree

/-- Entries in the order in which they were made. -/
abbrev Journal := List Journal.Entry

/-- The entry for a buffer whose capacity went from `before` to `after`, if it has grown. -/
def Journal.growth (before after : Nat) : Journal :=
  if before < after then [.growing before after] else []

end FieldTree
