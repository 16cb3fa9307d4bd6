import FieldTree.Error
import FieldTree.Field.Basic
import FieldTree.Item
import FieldTree.Storage

/-!
# Blobs

A blob is one growing buffer whose content is a single field, the root, an array or a table. The root's
length covers all that was written. Past the content the buffer is zero, so only the content is stored,
next to the number of bytes that are allocated.

## Architecture

- `Config`: how much is allocated at first, and how large a blob may become.
- `Blob.new`, `Blob.create`, `Blob.adopt`: an empty blob, one with a configuration, one from bytes.
- `Blob.reserve`: the only place where the buffer grows.
- `Blob.patchLength`, `Blob.truncateTo`, `Blob.withRootType`: changes to headers in place.

## Main statements

Each primitive change has one lemma that says what it does to `Blob.content`.
-/

namespace FieldTree

/-- The buffer grows in blocks of this many bytes. -/
def blockSize : Nat := 256

/-- The least number of whole blocks that hold `n` bytes, in bytes. -/
def alignToBlock (n : Nat) : Nat := (n + (blockSize - 1)) / blockSize * blockSize

theorem le_alignToBlock (n : Nat) : n ≤ alignToBlock n := by
  unfold alignToBlock blockSize; omega

/-- No allocation can be larger than this. -/
def maxAllocation : Nat := 2 ^ 63 - 1

/-! ## Configuration -/

/-- Bounds on a buffer. -/
structure Config where
  /-- bytes allocated at first; never less than a block -/
  initialCapacity : Nat := blockSize
  /-- the ceiling on the size of the content -/
  maxSize : Nat := 10000000
  deriving DecidableEq, Repr

/-- The ceiling in force: the root's length must fit its header. -/
def Config.limit (c : Config) : Nat := min c.maxSize maxLength

/-! ## The buffer -/

/-- A buffer that holds one field tree. -/
structure Blob where
  /-- the root field with everything in it -/
  storage : Storage
  /-- bytes allocated -/
  capacity : Nat
  config : Config

namespace Blob

/-- The root field with everything in it. -/
def content (b : Blob) : Bytes := b.storage.toList

/-- The whole buffer: the content, and zeros up to the capacity. -/
def buffer (b : Blob) : Bytes := b.content ++ .zeros (b.capacity - b.content.length)

/-- The root's header. -/
def root (b : Blob) : Header := (b.storage.header? 0).getD Field.empty.header

/-- The size of the content as the root states it, padding included. -/
def size (b : Blob) : Nat := b.root.paddedLength

/-- True when the root has no children. -/
def isEmpty (b : Blob) : Bool := b.root.rawLength ≤ headerSize

/-- The root field. -/
def head (b : Blob) : Field := (Field.ofBytes? b.content).getD .empty

/-- The field at an offset, if its header lies inside the content. -/
def field? (b : Blob) (offset : Nat) : Option Field :=
  if b.size < offset + headerSize then none else Field.ofBytes? (b.content.drop offset)

/-- Type, lengths, size and capacity, for debugging. -/
def debugText (b : Blob) : String :=
  let root := b.head.debugText
  s!"Blob \x7b root: {root}, size: {b.size}, capacity: {b.capacity} \x7d"

/-- A blob is determined by its content, its capacity and its configuration. -/
theorem ext {b b' : Blob} (content : b.content = b'.content) (capacity : b.capacity = b'.capacity)
    (config : b.config = b'.config) : b = b' := by
  obtain ⟨storage, _, _⟩ := b
  obtain ⟨storage', _, _⟩ := b'
  obtain rfl : storage = storage' := Storage.ext content
  cases capacity
  cases config
  rfl

theorem root_eq (b : Blob) : b.root = (Header.ofBytes? b.content).getD Field.empty.header := by
  rw [root, Storage.header?_eq, List.drop_zero, content]

/-! ## Making blobs -/

/-- The content of a blob to which nothing was written. -/
def emptyContent : Bytes := (Item.ofBracket .square).toBytes

/-- A blob with the given content. -/
def ofContent (content : Bytes) (capacity : Nat) (config : Config) : Blob :=
  ⟨.ofList content, capacity, config⟩

/-- An empty blob with the default configuration. -/
def new : Blob := ofContent emptyContent blockSize {}

/-- An empty blob. -/
def create (config : Config) : Except BlobError Blob :=
  let capacity := max config.initialCapacity blockSize
  if max config.limit blockSize < capacity then .error (.sizeLimit ⟨capacity, config.limit⟩)
  else .ok (ofContent emptyContent capacity config)

/-- A blob with the content that `data` starts with. Only the root's header is checked; what follows the
    root is left out.

    What is allocated is computed here without bound. A machine computes it in words of 64 bits: for an initial
    capacity above `2 ^ 64 - blockSize` the rounding up leaves the word, and then no blob comes about, by a fault of
    the product or of the copy behind it. Here the number is too large to be allocated, which is an error like
    others. What adoption gives is therefore stated where `config.initialCapacity + blockSize ≤ 2 ^ 64`. -/
def adopt (config : Config) (data : Bytes) : Except BlobError Blob :=
  match Header.ofBytes? data with
  | none => .error (.malformed 0 .shortHeader)
  | some root =>
    -- fits a word of 64 bits just where `config.initialCapacity + blockSize` is no more than one holds
    let capacity := alignToBlock (max (max data.length config.initialCapacity) blockSize)
    if !root.type.isContainer then .error (.malformed 0 (.rootType root.type))
    else if root.rawLength < headerSize then .error (.malformed 0 (.rootBelowHeader root.rawLength))
    else if data.length < root.rawLength then
      .error (.malformed 0 (.rootBeyondEnd root.rawLength data.length))
    else if config.limit < data.length then .error (.sizeLimit ⟨data.length, config.limit⟩)
    else if maxAllocation < capacity then .error (.allocation capacity)
    else
      -- what the data lacks of the padding is zero
      let size := root.paddedLength
      .ok (ofContent (data.take size ++ .zeros (size - data.length)) capacity config)

@[simp] theorem content_ofContent (content : Bytes) (capacity : Nat) (config : Config) :
    (ofContent content capacity config).content = content := rfl

/-! ## Room -/

/-- The capacity after room was made for `n` bytes of content, in whole blocks. -/
def capacityFor (b : Blob) (n : Nat) : Nat :=
  if n ≤ b.capacity then b.capacity else alignToBlock n

/-- Makes room for `n` bytes of content. -/
def reserve (b : Blob) (n : Nat) : Blob := { b with capacity := b.capacityFor n }

/-- Makes room for `n` bytes of content, if that is allowed. -/
def resize (b : Blob) (n : Nat) : Except SizeLimit Blob :=
  let limit := b.config.limit
  if n = 0 ∨ limit < n then .error ⟨n, limit⟩ else .ok (b.reserve n)

/-- Removes all content and keeps the buffer. -/
def reset (b : Blob) : Blob := { b with storage := .ofList emptyContent }

/-! ## Changes in place -/

/-- Replaces bytes of the content. -/
def patch (b : Blob) (offset : Nat) (bytes : Bytes) : Blob :=
  { b with storage := b.storage.patch offset bytes }

/-- Changes the length in the header at `offset`. -/
def patchLength (b : Blob) (offset length : Nat) : Blob :=
  match b.storage.header? offset with
  | none => b
  | some h => b.patch offset (h.withLength length).toBytes

/-- Zeroes what lies between the length and the padded length of the field at `offset`. -/
def clearPadding (b : Blob) (offset : Nat) : Blob :=
  match b.storage.header? offset with
  | none => b
  | some h => b.patch (offset + h.rawLength) (.zeros (h.paddedLength - h.rawLength))

/-- Changes the root's type and keeps its length. -/
def withRootType (b : Blob) (t : FieldType) : Blob :=
  b.patch 0 (b.root.withType t).toBytes

/-- Removes what was written after the first `size` bytes of content. -/
def truncateTo (b : Blob) (size : Nat) : Blob :=
  if b.size ≤ size then b
  else
    -- the root's header always stays
    let size := max size headerSize
    { b with storage := b.storage.take size }.patchLength 0 size

@[simp] theorem content_patch (b : Blob) (offset : Nat) (bytes : Bytes) :
    (b.patch offset bytes).content = b.content.patch offset bytes :=
  b.storage.toList_patch offset bytes

@[simp] theorem content_reserve (b : Blob) (n : Nat) : (b.reserve n).content = b.content := rfl

@[simp] theorem content_reset (b : Blob) : b.reset.content = emptyContent := rfl

/-- Only the length in the header at `offset` changes. -/
theorem content_patchLength (b : Blob) (offset length : Nat) :
    (b.patchLength offset length).content =
      match Header.ofBytes? (b.content.drop offset) with
      | none => b.content
      | some h => b.content.patch offset (h.withLength length).toBytes := by
  have hheader : b.storage.header? offset = Header.ofBytes? (b.content.drop offset) :=
    b.storage.header?_eq offset
  rw [patchLength, hheader]
  cases Header.ofBytes? (b.content.drop offset) with
  | none => rfl
  | some h => exact b.content_patch offset (h.withLength length).toBytes

@[simp] theorem capacity_patch (b : Blob) (offset : Nat) (bytes : Bytes) :
    (b.patch offset bytes).capacity = b.capacity := rfl

@[simp] theorem config_patch (b : Blob) (offset : Nat) (bytes : Bytes) :
    (b.patch offset bytes).config = b.config := rfl

@[simp] theorem capacity_withRootType (b : Blob) (t : FieldType) :
    (b.withRootType t).capacity = b.capacity := capacity_patch _ _ _

@[simp] theorem config_withRootType (b : Blob) (t : FieldType) :
    (b.withRootType t).config = b.config := config_patch _ _ _

@[simp] theorem capacity_patchLength (b : Blob) (offset length : Nat) :
    (b.patchLength offset length).capacity = b.capacity := by
  unfold patchLength
  cases b.storage.header? offset with
  | none => rfl
  | some h => exact b.capacity_patch offset (h.withLength length).toBytes

@[simp] theorem config_patchLength (b : Blob) (offset length : Nat) :
    (b.patchLength offset length).config = b.config := by
  unfold patchLength
  cases b.storage.header? offset with
  | none => rfl
  | some h => exact b.config_patch offset (h.withLength length).toBytes

end Blob

end FieldTree
