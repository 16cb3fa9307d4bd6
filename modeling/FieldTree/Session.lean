import FieldTree.Blob.Operation
import FieldTree.Signature.Matching

/-!
# Sessions

A session keeps several blobs and remembers what was written: the offset of every field in order, and the
offset of every container that was opened. An offset is only a number; it may be used on another blob than
the one it comes from, or after a reset.
-/

namespace FieldTree

/-- Blobs, and the offsets obtained so far. -/
structure Session where
  blobs : List Blob
  /-- the offsets of all fields that were appended -/
  refs : List Nat := []
  /-- the offsets of all containers that were opened -/
  handles : List Nat := []

namespace Session

/-- A session with `n` empty blobs. -/
def start (n : Nat) : Session := { blobs := List.replicate n .new }

/-- The blob with a given number; an empty one if there is none. -/
def blob (s : Session) (i : Nat) : Blob := s.blobs[i]?.getD .new

/-- Puts a blob in the place of another. -/
def setBlob (s : Session) (i : Nat) (b : Blob) : Session := { s with blobs := s.blobs.set i b }

/-- Makes a blob; on failure the blob in its place stays. -/
def make (s : Session) (i : Nat) (origin : Origin) : Session × Option BlobError × Journal :=
  match origin.make with
  | (.ok b, journal) => (s.setBlob i b, none, journal)
  | (.error e, journal) => (s, some e, journal)

/-- Carries out an operation on a blob and remembers the offset of a new field. -/
def perform (s : Session) (i : Nat) (op : Operation Nat) : Session × Outcome :=
  let outcome := op.run (s.blob i)
  let s := s.setBlob i outcome.blob
  match outcome.result with
  | .ok (some offset) =>
    ({ s with
        refs := s.refs ++ [offset]
        handles := if op.isOpening then s.handles ++ [offset] else s.handles }, outcome)
  | _ => (s, outcome)

end Session

end FieldTree
