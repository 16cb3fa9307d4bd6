import FieldTree.Blob.Operation

/-!
# Buffers

A buffer is all the bytes that are allocated for a blob, written in place. Nothing is known of it but its
bytes: the size of the content is what the first header says. Every access names the stretch that it
touches, and where that stretch is not inside the buffer there is no result at all.

## Architecture

- `Buffer.read?`, `Buffer.fill?`, `Buffer.clear?`: the checked accesses.
- `Buffer.newField`: zeros at the end, a header, and the root's length; every write goes through it.
- One write for each kind of value, on top of `Buffer.newField`.
- `Buffer.make?`, `Buffer.run?`: the origins of blobs and the operations on them.

In every result of type `Option` the value `none` stands for an access out of range.
-/

namespace FieldTree

/-- All allocated bytes of a blob. -/
structure Buffer where
  bytes : Bytes
  config : Config
  deriving DecidableEq, Repr

namespace Buffer

/-! ## Checked access -/

/-- The bytes from `start` up to and excluding `stop`. -/
def read? (m : Buffer) (start stop : Nat) : Option Bytes :=
  if start ≤ stop ∧ stop ≤ m.bytes.length then some (m.bytes.slice start stop) else none

/-- Writes bytes to the front of the stretch of `room` bytes at `start`. -/
def fill? (m : Buffer) (start room : Nat) (bytes : Bytes) : Option Buffer :=
  if bytes.length ≤ room ∧ start + room ≤ m.bytes.length then
    some { m with bytes := m.bytes.patch start bytes }
  else none

/-- Writes bytes over just as many. -/
def write? (m : Buffer) (start : Nat) (bytes : Bytes) : Option Buffer :=
  m.fill? start bytes.length bytes

/-- Zeroes the bytes from `start` up to and excluding `stop`. -/
def clear? (m : Buffer) (start stop : Nat) : Option Buffer :=
  if start ≤ stop ∧ stop ≤ m.bytes.length then
    some { m with bytes := m.bytes.patch start (.zeros (stop - start)) }
  else none

/-! ## Headers in place -/

/-- The header at `offset`, if the buffer does not end inside it. -/
def header? (m : Buffer) (offset : Nat) : Option (Option Header) :=
  (m.read? offset m.bytes.length).map Header.ofBytes?

/-- Changes the length in the header at `offset`. -/
def setLength? (m : Buffer) (offset length : Nat) : Option Buffer := do
  match ← m.header? offset with
  | none => return m
  | some h => m.write? offset (h.withLength length).toBytes

/-- Zeroes what lies between length and padded length of the field at `offset`, inside the buffer. -/
def clearPadding? (m : Buffer) (offset : Nat) : Option Buffer := do
  match ← m.header? offset with
  | none => return m
  | some h =>
    m.clear? (min (offset + h.rawLength) m.bytes.length)
      (min (offset + h.paddedLength) m.bytes.length)

/-- The root's header. -/
def root (m : Buffer) : Header := (Header.ofBytes? m.bytes).getD Field.empty.header

/-- The size of the content as the root states it, padding included. -/
def size (m : Buffer) : Nat := m.root.paddedLength

/-- The content. -/
def content? (m : Buffer) : Option Bytes := m.read? 0 (min m.size m.bytes.length)

/-- What is left of the buffer once it is cut down to its content and given away. -/
def release (m : Buffer) : Bytes := m.bytes.take (min m.size m.bytes.length)

/-- The field at an offset, if its header lies inside the content. -/
def field? (m : Buffer) (offset : Nat) : Option (Option Field) :=
  if m.size < offset + headerSize then some none
  else (m.read? offset m.size).map Field.ofBytes?

/-- Changes the root's type and keeps its length. -/
def setRootType? (m : Buffer) (t : FieldType) : Option Buffer :=
  m.write? 0 (m.root.withType t).toBytes

/-- Zeroes what was written after the first `size` bytes of content. -/
def truncateTo? (m : Buffer) (size : Nat) : Option Buffer :=
  if m.size ≤ size then some m
  else do
    -- the root's header always stays
    let size := max size headerSize
    (← m.clear? size m.size).setLength? 0 size

/-! ## Appending -/

/-- Makes room for `n` bytes of content, if that is allowed. -/
def resize (m : Buffer) (n : Nat) : Except SizeLimit Buffer :=
  let limit := m.config.limit
  if n = 0 ∨ limit < n then .error ⟨n, limit⟩
  else if n ≤ m.bytes.length then .ok m
  else .ok { m with bytes := m.bytes ++ .zeros (alignToBlock n - m.bytes.length) }

/-- What a write gives: the offset of the field, and the buffer with the field in it. -/
abbrev Written := Option (Except SizeLimit (Nat × Buffer))

/-- Appends a field with `payload` zero bytes of payload. -/
def newField (m : Buffer) (t : FieldType) (payload : Nat) : Written :=
  let stated := statedLength payload
  if maxLength < stated then some (.error ⟨stated, maxLength⟩)
  else
    let offset := m.size
    let stop := offset + alignUp stated
    match m.resize stop with
    | .error limit => some (.error limit)
    | .ok m => do
      -- the stretch is cleared, whatever it holds
      let m ← m.clear? offset stop
      let m ← m.write? offset (Header.new t stated).toBytes
      return .ok (offset, ← m.setLength? 0 stop)

/-- Completes a field that was just appended. Its offset is handed out as a word of 32 bits. -/
def complete (w : Written) (rest : Nat → Buffer → Option Buffer) : Written := do
  match ← w with
  | .error limit => return .error limit
  | .ok (offset, m) => return .ok (offset % 2 ^ 32, ← rest offset m)

/-- Appends a field of any type with a given payload. -/
def putScalar (m : Buffer) (t : FieldType) (payload : Bytes) : Written :=
  complete (m.newField t payload.length) fun offset m => do
    (← m.write? (offset + headerSize) payload).clearPadding? offset

/-- Appends a text and a zero byte. -/
def putString (m : Buffer) (text : String) : Written :=
  complete (m.newField .string (text.utf8ByteSize + 1)) fun offset m =>
    m.write? (offset + headerSize) (.ofText text)

/-- Appends an item whose type has only one size. -/
def putFixed (m : Buffer) (item : Item) : Written :=
  -- the room is that of the type, whatever the payload is
  let room := item.type.fixedSize?.getD 0
  complete (m.newField item.type room) fun offset m =>
    m.fill? (offset + headerSize) room item.payload

/-- Appends an empty container. -/
def openContainer (m : Buffer) (bracket : Bracket) : Written :=
  complete (m.newField bracket.container 0) fun _ m => some m

/-- Lengthens the container at `offset` to the end of the content; does nothing if it is not inside. -/
def close? (m : Buffer) (offset : Nat) : Option Buffer :=
  let stop := m.root.rawLength
  if offset = 0 ∨ stop < offset + headerSize then some m else m.setLength? offset (stop - offset)

/-- Writes the copy of a field over the zeros at `offset`. -/
def copyOver? (m : Buffer) (offset : Nat) (copy : Bytes) : Option Buffer := do
  (← m.write? offset copy).clearPadding? offset

/-- Appends a field with everything in it. -/
def putField (m : Buffer) (f : Field) : Written :=
  complete (m.newField f.type f.header.dataLength) fun offset m =>
    m.copyOver? offset (f.bytes.take (Blob.copiedLength f))

/-- Appends a copy of the bytes from `source` on, with room for `f`. -/
def putSlice (m : Buffer) (source : Nat) (f : Field) : Written :=
  complete (m.newField f.type f.header.dataLength) fun offset m => do
    m.copyOver? offset (← m.read? source (source + Blob.copiedLength f))

/-- Appends a copy of the field at `source`. -/
def putCopy (m : Buffer) (source : Nat) : Option (Except BlobError (Nat × Buffer)) := do
  match ← m.field? source with
  | none => return .error (.malformed source .noField)
  | some f => return (← m.putSlice source f).mapError .sizeLimit

/-! ## Texts -/

/-- Writes the item of a token. -/
def putToken (m : Buffer) (token : Json.Token) (item : Item) : Written :=
  match token with
  | .string text => m.putString text
  | .key text => m.putString text
  | .opening bracket => m.openContainer bracket
  | _ => m.putFixed item

/-- Lengthens the innermost open container to the end of the content. -/
def closeInnermost? (m : Buffer) : Json.OpenFields → Option Buffer
  | some offset :: _ => m.close? offset
  | _ => some m

/-- Writes tokens up to the first that is refused. -/
def writeTokens? (fillsRoot : Bool) :
    Json.OpenFields → Buffer → List (Json.Token × Json.Position) → Option (Buffer × Option Json.Fault)
  | _, m, [] => some (m, none)
  | outer, m, (token, refusal) :: rest =>
    match token.item? with
    | none => do writeTokens? fillsRoot outer.tail (← m.closeInnermost? outer) rest
    | some item =>
      if fillsRoot && outer.isEmpty && token.isOpening then do
        writeTokens? fillsRoot [none] (← m.setRootType? item.type) rest
      else do
        match ← m.putToken token item with
        | .error limit => return (m, some ⟨.refused limit, refusal⟩)
        | .ok (offset, m) => writeTokens? fillsRoot (outer.push token offset) m rest

/-- Writes a text into a buffer. On a fault the content is cut back to its size before. -/
def decode? (fillsRoot : Bool) (m : Buffer) (text : String) : Option (Buffer × Option Json.Fault) := do
  let scan := Json.Scan.ofText text
  let (written, fault?) ← writeTokens? fillsRoot [] m scan.tokens
  match fault?.or scan.fault? with
  | none => return (written, none)
  | some fault => return (← (← written.truncateTo? m.size).setRootType? m.root.type, some fault)

/-! ## Making buffers -/

/-- A buffer of zeros with an empty root. -/
def empty? (capacity : Nat) (config : Config) : Option Buffer :=
  write? ⟨.zeros capacity, config⟩ 0 Blob.emptyContent

/-- Zeroes everything but an empty root. -/
def reset? (m : Buffer) : Option Buffer := empty? m.bytes.length m.config

/-- An empty buffer. -/
def create? (config : Config) : Option (Except BlobError Buffer) :=
  let capacity := max config.initialCapacity blockSize
  if max config.limit blockSize < capacity then some (.error (.sizeLimit ⟨capacity, config.limit⟩))
  else do return .ok (← empty? capacity config)

/-- A buffer with the content that `data` starts with. As for `Blob.adopt`, the capacity is a number without bound,
    and stands for a machine's where `config.initialCapacity + blockSize ≤ 2 ^ 64`. -/
def adopt? (config : Config) (data : Bytes) : Option (Except BlobError Buffer) :=
  match Header.ofBytes? data with
  | none => some (.error (.malformed 0 .shortHeader))
  | some root =>
    let capacity := alignToBlock (max (max data.length config.initialCapacity) blockSize)
    if !root.type.isContainer then some (.error (.malformed 0 (.rootType root.type)))
    else if root.rawLength < headerSize then
      some (.error (.malformed 0 (.rootBelowHeader root.rawLength)))
    else if data.length < root.rawLength then
      some (.error (.malformed 0 (.rootBeyondEnd root.rawLength data.length)))
    else if config.limit < data.length then some (.error (.sizeLimit ⟨data.length, config.limit⟩))
    else if maxAllocation < capacity then some (.error (.allocation capacity))
    else do
      -- the buffer is zero, so padding that the data lacks needs no write
      let content := data.take (min root.paddedLength data.length)
      return .ok (← write? ⟨.zeros capacity, config⟩ 0 content)

/-- A new buffer with the value of a JSON text. -/
def ofJson? (config : Config) (text : String) : Option (Except BlobError Buffer) := do
  match ← create? config with
  | .error e => return .error e
  | .ok m =>
    match ← m.decode? true text with
    | (_, some fault) => return .error (.json fault)
    | (m, none) => return .ok m

/-- Makes a buffer, unless there is a reason not to. -/
def make? : Origin → Option (Except BlobError Buffer)
  | .new => do return .ok (← empty? blockSize {})
  | .create config => create? config
  | .adopt config data => adopt? config data
  | .json config text => ofJson? config text

/-! ## Operations -/

/-- What an operation leaves: its result and the buffer. -/
abbrev Outcome := Option (Except BlobError (Option Nat) × Buffer)

/-- The outcome of a write to `m`; a write that fails leaves `m` as it was. -/
def ofWritten (m : Buffer) : Except BlobError (Nat × Buffer) → Except BlobError (Option Nat) × Buffer
  | .error e => (.error e, m)
  | .ok (offset, after) => (.ok (some offset), after)

/-- The outcome of a write whose only failure is for want of room. -/
def ofWrite (m : Buffer) (w : Written) : Outcome :=
  w.map fun written => m.ofWritten (written.mapError .sizeLimit)

/-- Carries out an operation. -/
def run? (m : Buffer) : Operation Nat → Outcome
  | .putScalar type payload => m.ofWrite (m.putScalar type payload)
  | .putString text => m.ofWrite (m.putString text)
  | .putInt v => m.ofWrite (m.putFixed (.ofInt v))
  | .putBool v => m.ofWrite (m.putFixed (.ofBool v))
  | .putReal v => m.ofWrite (m.putFixed (.ofReal v))
  | .putDouble v => m.ofWrite (m.putFixed (.ofDouble v))
  | .putSingle v => m.ofWrite (m.putFixed (.ofSingle v))
  | .putField f => m.ofWrite (m.putField f)
  | .putCopy source => (m.putCopy source).map m.ofWritten
  | .openContainer bracket => m.ofWrite (m.openContainer bracket)
  | .close container => (m.close? container).map fun m => (.ok none, m)
  | .putJson text =>
    (m.decode? false text).map fun (m, fault?) => (match fault? with
      | some fault => .error (.json fault)
      | none => .ok none, m)
  | .resize n =>
    match m.resize n with
    | .error limit => some (.error (.sizeLimit limit), m)
    | .ok m => some (.ok none, m)
  | .reset => m.reset?.map fun m => (.ok none, m)

end Buffer

end FieldTree
