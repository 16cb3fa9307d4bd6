import FieldTree.Json.Decoding
import FieldTree.Listing

/-!
# Operations as Data

The operations that change a blob, as values. A program is a list of them; running it gives the result of
every operation, the blob it leaves and the entries it makes in the journal.

An operation that mentions an earlier field does so by a place of some type. `Operation Nat` has offsets for
places and can be run; an operation over another type of places is first resolved.

## Architecture

- `Origin`: the ways to make a blob, with `Origin.make`.
- `Operation`: the ways to change one, with `Operation.run`.
- `Operation.resolve?`: from places to offsets.
-/

namespace FieldTree

/-! ## Making a blob -/

/-- Where a blob comes from. -/
inductive Origin where
  | new
  | create (config : Config)
  | adopt (config : Config) (data : Bytes)
  | json (config : Config) (text : String)
  deriving DecidableEq, Repr

/-- Makes the blob, unless there is a reason not to. -/
def Origin.make : Origin → Except BlobError Blob × Journal
  | new => (.ok .new, [])
  | create config => (Blob.create config, [])
  | adopt config data =>
    match Blob.adopt config data with
    | .error e => (.error e, [])
    | .ok b => (.ok b, [.adopted data.length b.size])
  | json config text => Blob.ofJson config text

/-! ## Changing a blob -/

/-- A change to a blob. -/
inductive Operation (Place : Type) where
  | putScalar (type : FieldType) (payload : Bytes)
  | putString (text : String)
  | putInt (v : Int)
  | putBool (v : Bool)
  | putReal (v : Double)
  | putDouble (v : Double)
  | putSingle (v : Single)
  | putField (f : Field)
  | putCopy (source : Place)
  | openContainer (bracket : Bracket)
  | close (container : Place)
  | putJson (text : String)
  | resize (n : Nat)
  | reset
  deriving DecidableEq, Repr

/-- What an operation leaves behind. -/
structure Outcome where
  /-- the offset of the new field, if the operation appends one -/
  result : Except BlobError (Option Nat)
  blob : Blob
  journal : Journal

namespace Operation

/-- The outcome of a write to `b`; a write that fails leaves `b` as it was. -/
def ofWritten (b : Blob) (note : Nat → Journal) : Except BlobError (Nat × Blob) → Outcome
  | .error e => ⟨.error e, b, []⟩
  | .ok (offset, after) => ⟨.ok (some offset), after, .growth b.capacity after.capacity ++ note offset⟩

/-- The outcome of a write whose only failure is for want of room. -/
def ofWrite (b : Blob) (w : Blob.Written) (note : Nat → Journal := fun _ => []) : Outcome :=
  ofWritten b note (w.mapError .sizeLimit)

/-- Carries out an operation. -/
def run (b : Blob) : Operation Nat → Outcome
  | putScalar type payload =>
    ofWrite b (b.putScalar type payload) fun offset => [.wrote type payload.length offset]
  | putString text => ofWrite b (b.putString text)
  | putInt v => ofWrite b (b.putInt v)
  | putBool v => ofWrite b (b.putBool v)
  | putReal v => ofWrite b (b.putReal v)
  | putDouble v => ofWrite b (b.putDouble v)
  | putSingle v => ofWrite b (b.putSingle v)
  | putField f => ofWrite b (b.putField f)
  | putCopy source => ofWritten b (fun _ => []) (b.putCopy source)
  | openContainer bracket => ofWrite b (b.openContainer bracket)
  | close container =>
    let note := if b.canClose container then [] else [.ignoredClose container b.root.rawLength]
    ⟨.ok none, b.close container, note⟩
  | putJson text =>
    let d := b.putJson text
    match d.fault? with
    | some fault => ⟨.error (.json fault), d.blob, d.journal⟩
    | none => ⟨.ok none, d.blob, d.journal⟩
  | resize n =>
    match b.resize n with
    | .error e => ⟨.error (.sizeLimit e), b, []⟩
    | .ok after => ⟨.ok none, after, .growth b.capacity after.capacity⟩
  | reset => ⟨.ok none, b.reset, [.resetting b.capacity]⟩

/-- Whether the operation opens a container. -/
def isOpening {Place : Type} : Operation Place → Bool
  | openContainer _ => true
  | _ => false

/-- The operation with its place looked up, if the place is known. -/
def resolve? {Place : Type} (offset? : Place → Option Nat) : Operation Place → Option (Operation Nat)
  | putScalar type payload => some (putScalar type payload)
  | putString text => some (putString text)
  | putInt v => some (putInt v)
  | putBool v => some (putBool v)
  | putReal v => some (putReal v)
  | putDouble v => some (putDouble v)
  | putSingle v => some (putSingle v)
  | putField f => some (putField f)
  | putCopy source => (offset? source).map putCopy
  | openContainer bracket => some (openContainer bracket)
  | close container => (offset? container).map close
  | putJson text => some (putJson text)
  | resize n => some (resize n)
  | reset => some reset

end Operation

end FieldTree
