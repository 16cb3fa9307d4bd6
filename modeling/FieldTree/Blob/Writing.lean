import FieldTree.Blob.Basic

/-!
# Writing Fields

Every write appends one field at the end of the content and lengthens the root so that it covers the new
field. Containers are opened empty; their children are appended as if they were siblings, and closing a
container lengthens it to the end of the content.

A write succeeds with the offset of the new field and the blob that holds it. The only reason to fail is
`SizeLimit`, and then there is no new blob.

## Architecture

- `Blob.refusal?`: why there is no room for a field, if there is none.
- `Blob.append`: an item at the end; every write goes through it.
- `Blob.put`, with one write for each kind of value.
- `Blob.openContainer`, `Blob.close`.
- `Blob.putField`, `Blob.putCopy`: whole fields, from anywhere or from the same content.
-/

namespace FieldTree.Blob

/-- What a write gives: the offset of the field, and the blob with the field in it. -/
abbrev Written := Except SizeLimit (Nat × Blob)

/-! ## Appending -/

/-- Where a field with `payload` bytes of payload would end, padding included. -/
def stopOf (b : Blob) (payload : Nat) : Nat := b.size + alignUp (statedLength payload)

/-- Why a field with `payload` bytes of payload cannot be appended, if it cannot. -/
def refusal? (b : Blob) (payload : Nat) : Option SizeLimit :=
  if maxLength < statedLength payload then some ⟨statedLength payload, maxLength⟩
  else if b.config.limit < b.stopOf payload then some ⟨b.stopOf payload, b.config.limit⟩
  else none

/-- The item behind the content, and the root's length with it. -/
def append (b : Blob) (item : Item) : Blob :=
  let stop := b.stopOf item.payload.length
  let roomy := b.reserve stop
  { roomy with storage := roomy.storage.append item.toBytes }.patchLength 0 stop

/-- Appends an item if there is room. -/
def put (b : Blob) (item : Item) : Written :=
  match b.refusal? item.payload.length with
  | some limit => .error limit
  | none => .ok (b.size, b.append item)

/-! ## Scalars -/

/-- Appends a field of any type with a given payload. -/
def putScalar (b : Blob) (t : FieldType) (payload : Bytes) : Written := b.put ⟨t, payload⟩

/-- Appends an integer. -/
def putInt (b : Blob) (v : Int) : Written := b.put (.ofInt v)

/-- Appends a truth value. -/
def putBool (b : Blob) (v : Bool) : Written := b.put (.ofBool v)

/-- Appends a single. -/
def putSingle (b : Blob) (v : Single) : Written := b.put (.ofSingle v)

/-- Appends a double. -/
def putDouble (b : Blob) (v : Double) : Written := b.put (.ofDouble v)

/-- Appends a real number as narrow as it allows. -/
def putReal (b : Blob) (v : Double) : Written := b.put (.ofReal v)

/-- Appends a text. Its bytes are spelled out only if there is room for them. -/
def putString (b : Blob) (text : String) : Written :=
  match b.refusal? (text.utf8ByteSize + 1) with
  | some limit => .error limit
  | none => .ok (b.size, b.append (.ofText text))

theorem putString_eq (b : Blob) (text : String) : b.putString text = b.put (.ofText text) := by
  have h : (Item.ofText text).payload.length = text.utf8ByteSize + 1 := by
    rw [Item.ofText, List.length_append, Bytes.length_ofText, List.length_singleton]
  rw [put, h, putString]

/-! ## Containers -/

/-- Appends an empty container. What is appended next belongs to it once it is closed. -/
def openContainer (b : Blob) (bracket : Bracket) : Written := b.put (.ofBracket bracket)

/-- Whether a container at `offset` is inside the content and can be closed. -/
def canClose (b : Blob) (offset : Nat) : Bool :=
  offset != 0 && offset + headerSize ≤ b.root.rawLength

/-- Lengthens the container at `offset` to the end of the content; does nothing if it is not inside. -/
def close (b : Blob) (offset : Nat) : Blob :=
  if b.canClose offset then b.patchLength offset (b.root.rawLength - offset) else b

/-! ## Whole fields -/

/-- How many bytes of a field are taken over by a copy. -/
def copiedLength (f : Field) : Nat := min f.bytes.length f.paddedLength

/-- Room for a copy of `f` at the end of the content, with a header of its own. -/
def appendRoom (b : Blob) (f : Field) : Blob := b.append ⟨f.type, .zeros f.header.dataLength⟩

/-- Appends a field with everything in it. -/
def putField (b : Blob) (f : Field) : Written :=
  match b.refusal? f.header.dataLength with
  | some limit => .error limit
  | none =>
    let offset := b.size
    .ok (offset, ((b.appendRoom f).patch offset (f.bytes.take (copiedLength f))).clearPadding offset)

/-- Appends a copy of the field at `source`, as it is once the root covers the copy. -/
def putCopy (b : Blob) (source : Nat) : Except BlobError (Nat × Blob) :=
  match b.field? source with
  | none => .error (.malformed source .noField)
  | some f =>
    match b.refusal? f.header.dataLength with
    | some limit => .error (.sizeLimit limit)
    | none =>
      let offset := b.size
      -- the source is read once the root covers the copy, which matters where it is the root
      let roomy := b.appendRoom f
      let copy := roomy.storage.slice source (source + copiedLength f)
      .ok (offset, (roomy.patch offset copy).clearPadding offset)

end FieldTree.Blob
