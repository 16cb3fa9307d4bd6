import FieldTree.Proofs.Preservation

/-!
# The Append Law

Whatever kind of field is appended, the same is true: it needs room for its header, its payload and the zeros
that pad it, and nothing else can stop it. It then stands where the content ended, and of what was there before
only the length of the root has changed. A copy of a field from elsewhere is no exception: it keeps its header
word, whatever tag and flag that has, and what its payload lacks is zero.

## Architecture

- `Field.padded`: a header, a payload, and zeros up to a multiple of four.
- `Field.laid_copied`: a copy is the field that it was taken from, padded anew.
- `Blob.copyOver_extends`: a copy extends a blob, whatever is copied.
- `Operation.appended?`: the header and the payload that an operation appends.
- `Blob.Adds`, `Operation.adds_item_iff`: the field that is read after an item was appended, and when there is one.
- `Session.append_law`: **the main statement**, for every blob that a program can make.
-/

namespace FieldTree

/-! ## Zeros at the end -/

namespace Bytes

theorem drop_zeros (m n : Nat) : (zeros n).drop m = zeros (n - m) := List.drop_replicate

theorem take_append_zeros (bytes : Bytes) (m n : Nat) :
    (bytes ++ zeros m).take n = bytes.take n ++ zeros (min (n - bytes.length) m) := by
  rw [List.take_append, zeros, List.take_replicate]
  rfl

/-- Clearing from some place on to the end. -/
theorem patch_zeros_tail {bytes : Bytes} {n k : Nat} (h : n + k = bytes.length) :
    bytes.patch n (zeros k) = bytes.take n ++ zeros k := by
  have hfits : n + (zeros k).length ≤ bytes.length := by
    rw [length_zeros]
    exact Nat.le_of_eq h
  rw [patch_eq hfits, length_zeros, h, List.drop_length, List.append_nil]

end Bytes

/-! ## Padded fields -/

/-- A header with a payload, and zeros up to a multiple of four. -/
def Field.padded (header : Header) (payload : Bytes) : Field :=
  ⟨header, payload ++ .zeros (alignUp (headerSize + payload.length) - (headerSize + payload.length))⟩

/-- The field of an item. -/
def Item.field (item : Item) : Field := .padded (.new item.type (statedLength item.payload.length)) item.payload

theorem Item.toBytes_eq (item : Item) : item.toBytes = item.field.bytes := List.append_assoc _ _ _

namespace Field

variable {f : Field}

/-- The payload of a field in full: what is missing of it is zero. -/
def payload (f : Field) : Bytes := f.data ++ .zeros (f.header.dataLength - f.data.length)

theorem length_payload (f : Field) : f.payload.length = f.header.dataLength := by
  have hdata : f.data.length ≤ f.header.dataLength := List.length_take_le _ _
  rw [payload, List.length_append, Bytes.length_zeros]
  omega

theorem length_bytes_padded (header : Header) (payload : Bytes) :
    (padded header payload).bytes.length = alignUp (headerSize + payload.length) := by
  have hle := le_alignUp (headerSize + payload.length)
  simp only [padded, bytes, List.length_append, Header.length_toBytes, Bytes.length_zeros, headerSize] at *
  omega

theorem room_eq (f : Field) : f.room = (Header.new f.type (statedLength f.header.dataLength)).toBytes ++
    .zeros (alignUp (statedLength f.header.dataLength) - headerSize) :=
  Item.toBytes_zeros _ _

theorem copied_of_le (hlow : headerSize ≤ f.rawLength) :
    f.copied = f.header.toBytes ++ f.body.take (bodyRoom f.header) := by
  have hpadded : f.header.paddedLength = f.header.toBytes.length + bodyRoom f.header := by
    have hle : f.rawLength ≤ f.header.paddedLength := le_alignUp _
    rw [Header.length_toBytes, bodyRoom]
    unfold headerSize at *
    omega
  have htake : f.copied = f.bytes.take f.header.paddedLength := by
    rw [copied, Blob.copiedLength, Nat.min_comm]
    exact List.take_eq_take_min.symm
  rw [htake, bytes, hpadded, List.take_length_add_append]

/-- **A copy is the field that it was taken from, padded anew**: its header as it is, its payload as far as it is
    present, and zeros. -/
theorem laid_copied (hlow : headerSize ≤ f.rawLength) : f.laid f.copied = (padded f.header f.payload).bytes := by
  generalize hn : f.header.dataLength = n
  generalize hroom : bodyRoom f.header = room
  have hraw : f.header.rawLength = headerSize + n := by
    rw [← hn, Header.dataLength]
    exact (Nat.add_sub_cancel' hlow).symm
  have hpadded : f.header.paddedLength = headerSize + room := by
    have hle : f.rawLength ≤ f.header.paddedLength := le_alignUp _
    rw [← hroom, bodyRoom]
    omega
  have hle : n ≤ room := by
    have : f.header.rawLength ≤ f.header.paddedLength := le_alignUp _
    omega
  have hcopied := copied_of_le hlow
  rw [hroom] at hcopied
  -- what is copied stands in front of the zeros that are left of the room
  have hfilled : f.room.patch 0 f.copied =
      f.header.toBytes ++ (f.body.take room ++ .zeros (room - (f.body.take room).length)) := by
    have hlength : (f.body.take room).length ≤ room := List.length_take_le _ _
    have hfits : 0 + (f.header.toBytes ++ f.body.take room).length ≤
        ((Header.new f.type (statedLength n)).toBytes ++ Bytes.zeros room).length := by
      simp only [List.length_append, Header.length_toBytes, Bytes.length_zeros]
      omega
    have hzeros : alignUp (statedLength n) - headerSize = room := by
      have : alignUp (statedLength n) = headerSize + room := by rw [← hpadded, Header.paddedLength, hraw]; rfl
      omega
    rw [room_eq, hn, hzeros, hcopied, Bytes.patch_eq hfits, List.take_zero, List.nil_append, Nat.zero_add,
      List.append_assoc, List.length_append, Header.length_toBytes, ← Header.length_toBytes (.new f.type _),
      List.drop_length_add_append, Bytes.drop_zeros]
  -- what is cleared is all that stands behind the payload
  have hcleared : Bytes.patch (f.body.take room ++ .zeros (room - (f.body.take room).length)) n
      (.zeros (room - n)) = f.payload ++ .zeros (room - n) := by
    have hall : n + (room - n) =
        (f.body.take room ++ Bytes.zeros (room - (f.body.take room).length)).length := by
      have hlength : (f.body.take room).length ≤ room := List.length_take_le _ _
      rw [List.length_append, Bytes.length_zeros]
      omega
    rw [Bytes.patch_zeros_tail hall, Bytes.take_append_zeros, List.take_take, Nat.min_eq_left hle, payload, data, hn,
      List.length_take, List.length_take]
    congr 3
    omega
  have hstated : alignUp (headerSize + n) - (headerSize + n) = room - n := by
    rw [← hraw, ← Header.paddedLength, hpadded, hraw]
    omega
  have hread : Header.ofBytes? (f.room.patch 0 f.copied) = some f.header := by
    rw [hfilled, Header.ofBytes?_toBytes]
  rw [laid, Bytes.clearPadding, hread, hfilled]
  dsimp only
  rw [hpadded, hraw, Nat.add_sub_add_left, headerSize, ← Header.length_toBytes f.header,
    Bytes.patch_append_right, hcleared, padded, length_payload, hn, hstated]
  rfl

/-- What is padded ends with its padding. -/
theorem length_body_padded_le {header : Header} {payload : Bytes}
    (hraw : header.rawLength = headerSize + payload.length) :
    (padded header payload).body.length ≤ bodyRoom header := by
  have hlength := length_bytes_padded header payload
  rw [bytes, List.length_append, Header.length_toBytes] at hlength
  rw [bodyRoom, Header.paddedLength, hraw, ← hlength]
  exact Nat.le_of_eq (Nat.add_sub_cancel_left _ _).symm

/-- The payload of what is padded is what was given. -/
theorem data_padded {header : Header} {payload : Bytes} (hraw : header.rawLength = headerSize + payload.length) :
    (padded header payload).data = payload := by
  rw [data, padded, Header.dataLength, hraw, Nat.add_sub_cancel_left, List.take_left]

end Field

/-! ## Copies as extensions -/

/-- **A copy extends a blob**, whatever is copied over the new room. -/
theorem Blob.copyOver_extends {b : Blob} {f : Field} (hb : b.Sound)
    (hroom : b.refusal? f.header.dataLength = none) (copy : Bytes) :
    b.Extends (b.copyOver f copy) (f.laid copy) := by
  obtain ⟨hsound, hroot⟩ := hb.copyOver hroom copy (rfl : b.copyOver f copy = _)
  have hbody := body_copyOver hb hroom copy
  have hsize : (b.copyOver f copy).size = b.size + (f.laid copy).length := by
    rw [hsound.toFormed.size_eq, hbody, List.length_append, hb.toFormed.size_eq, Nat.add_assoc]
  exact {
    root_eq := hsize ▸ hroot
    body_eq := hbody
    config_eq := (preserved_config b.config).copyOver hb rfl hroom copy
    fits := by
      rw [Field.length_laid, Field.length_room]
      exact refusal?_eq_none_iff.mp hroom
    formed := hsound.toFormed }

/-! ## What is appended -/

/-- An operation succeeds, and `f` is the field that is read where the content ended. -/
structure Blob.Adds (b : Blob) (op : Operation Nat) (f : Field) : Prop where
  result : (op.run b).result = .ok (some b.size)
  found : (op.run b).blob.field? b.size = some f

/-- A field has the type and the payload of an item, and states their length. -/
structure Field.Holds (f : Field) (item : Item) : Prop where
  type : f.type = item.type
  data : f.data = item.payload
  rawLength : f.rawLength = headerSize + item.payload.length

namespace Operation

/-- The item that an operation appends. -/
def item? {Place : Type} : Operation Place → Option Item
  | putScalar type payload => some ⟨type, payload⟩
  | putString text => some (.ofText text)
  | putInt v => some (.ofInt v)
  | putBool v => some (.ofBool v)
  | putReal v => some (.ofReal v)
  | putDouble v => some (.ofDouble v)
  | putSingle v => some (.ofSingle v)
  | openContainer bracket => some (.ofBracket bracket)
  | _ => none

/-- The header and the payload that an operation appends: those of an item, or those of a field from elsewhere
    that states at least the length of its header. -/
def appended? {Place : Type} (op : Operation Place) : Option (Header × Bytes) :=
  match op with
  | putField f => if headerSize ≤ f.rawLength then some (f.header, f.payload) else none
  | op => op.item?.map fun item => (.new item.type (statedLength item.payload.length), item.payload)

variable {b : Blob} {op : Operation Nat} {header : Header} {payload : Bytes}

/-- An operation with an item puts it. -/
theorem run_of_item? (b : Blob) {item : Item} (hitem : op.item? = some item) :
    ∃ note, op.run b = ofWrite b (b.put item) note := by
  cases op with
  | putScalar | putInt | putBool | putReal | putDouble | putSingle | openContainer =>
    cases hitem
    exact ⟨_, rfl⟩
  | putString text =>
    cases hitem
    rw [run, Blob.putString_eq]
    exact ⟨_, rfl⟩
  | putField | putCopy | close | putJson | resize | reset => cases hitem

/-- What an operation appends is an item, or a field from elsewhere. -/
theorem appended?_cases (h : op.appended? = some (header, payload)) :
    (∃ item : Item, op.item? = some item ∧ header = .new item.type (statedLength item.payload.length) ∧
        payload = item.payload) ∨
      ∃ f : Field, op = .putField f ∧ headerSize ≤ f.rawLength ∧ header = f.header ∧ payload = f.payload := by
  cases op with
  | putField f =>
    by_cases hlow : headerSize ≤ f.rawLength
    case pos =>
      rw [appended?, if_pos hlow] at h
      cases h
      exact .inr ⟨f, rfl, hlow, rfl, rfl⟩
    case neg =>
      rw [appended?, if_neg hlow] at h
      cases h
  | putScalar | putString | putInt | putBool | putReal | putDouble | putSingle | openContainer =>
    cases h
    exact .inl ⟨_, rfl, rfl, rfl⟩
  | putCopy | close | putJson | resize | reset => cases h

/-- What appends a field of its own touches nothing in front of it. -/
theorem behind_of_appended? (h : op.appended? = some (header, payload)) : op.Behind := by
  cases op with
  | close => cases h
  | putScalar | putString | putInt | putBool | putReal | putDouble | putSingle | putField | putCopy
  | openContainer | putJson | resize | reset => trivial

/-- **Where there is room, the field is gained.** -/
theorem run_of_fits (hb : b.Sound) (h : op.appended? = some (header, payload))
    (hfits : b.size + alignUp (headerSize + payload.length) ≤ b.config.limit) :
    (op.run b).result = .ok (some b.size) ∧ b.Gained (op.run b).blob (.padded header payload) ∧
      header.rawLength = headerSize + payload.length := by
  -- an item is written from its parts, a field is copied from its bytes
  rcases appended?_cases h with ⟨item, hitem, rfl, rfl⟩ | ⟨f, rfl, hlow, rfl, rfl⟩
  case inl =>
    obtain ⟨note, hrun⟩ := run_of_item? b hitem
    rw [← statedLength, ← Item.toBytes_length] at hfits
    -- the length is stated in the header as it is, since what fits is below the largest length
    have hraw : (Header.new item.type (statedLength item.payload.length)).rawLength =
        headerSize + item.payload.length := by
      have hlimit := b.config.limit_le
      have hstated : statedLength item.payload.length ≤ item.toBytes.length := item.le_toBytes_length
      exact Header.rawLength_new item.type (Nat.le_add_right _ _) (by omega)
    have e := Blob.append_extends hb.toFormed item hfits
    rw [Item.toBytes_eq] at e
    rw [hrun, Blob.put_of_fits hfits]
    exact ⟨rfl, e.gains hb.toFormed (Field.length_body_padded_le hraw), hraw⟩
  case inr =>
    rw [Field.length_payload] at hfits
    have hroom : b.refusal? f.header.dataLength = none := Blob.refusal?_eq_none hfits
    have hput : b.putField f = .ok (b.size, b.copyOver f f.copied) := by
      rw [Blob.putField, hroom]
      rfl
    -- the header is that of the field, whose length covers at least itself
    have hraw : f.header.rawLength = headerSize + f.payload.length := by
      rw [Field.length_payload, Header.dataLength]
      exact (Nat.add_sub_cancel' hlow).symm
    have e := Blob.copyOver_extends hb hroom f.copied
    rw [Field.laid_copied hlow] at e
    rw [run, hput]
    exact ⟨rfl, e.gains hb.toFormed (Field.length_body_padded_le hraw), hraw⟩

/-- **Where there is none, nothing is changed.** -/
theorem run_of_exceeds (h : op.appended? = some (header, payload))
    (hexceeds : b.config.limit < b.size + alignUp (headerSize + payload.length)) :
    ∃ limit, op.run b = ⟨.error (.sizeLimit limit), b, []⟩ := by
  rcases appended?_cases h with ⟨item, hitem, rfl, rfl⟩ | ⟨f, rfl, hlow, rfl, rfl⟩
  case inl =>
    obtain ⟨note, hrun⟩ := run_of_item? b hitem
    rw [← statedLength, ← Item.toBytes_length] at hexceeds
    obtain ⟨limit, hput⟩ := Blob.put_of_exceeds hexceeds
    refine ⟨limit, ?_⟩
    rw [hrun, hput]
    rfl
  case inr =>
    rw [Field.length_payload] at hexceeds
    obtain ⟨limit, hrefused⟩ := Blob.exists_refusal? (n := f.header.dataLength) hexceeds
    refine ⟨limit, ?_⟩
    rw [run, Blob.putField, hrefused]
    rfl

/-- An operation with an item appends that item. -/
theorem appended?_of_item? {item : Item} (hitem : op.item? = some item) :
    op.appended? = some (.new item.type (statedLength item.payload.length), item.payload) := by
  cases op with
  | putField | putCopy | close | putJson | resize | reset => cases hitem
  | putScalar | putString | putInt | putBool | putReal | putDouble | putSingle | openContainer =>
    cases hitem
    rfl

/-- **An item with room is the field that is added.** -/
theorem adds_item (hb : b.Sound) {item : Item} (hitem : op.item? = some item)
    (hroom : b.stopOf item.payload.length ≤ b.config.limit) : b.Adds op item.field ∧ item.field.Holds item := by
  obtain ⟨hresult, hgained, hraw⟩ := run_of_fits hb (appended?_of_item? hitem) hroom
  exact ⟨⟨hresult, hgained.found⟩, Header.type_new _ _, Field.data_padded hraw, hraw⟩

/-- No other field is added, and none where there is no room. -/
theorem adds_item_iff (hb : b.Sound) {item : Item} (hitem : op.item? = some item) (f : Field) :
    b.Adds op f ↔ b.stopOf item.payload.length ≤ b.config.limit ∧ f = item.field := by
  constructor
  · intro h
    rcases Nat.lt_or_ge b.config.limit (b.stopOf item.payload.length) with hexceeds | hroom
    · obtain ⟨limit, hrun⟩ := run_of_exceeds (appended?_of_item? hitem) hexceeds
      have hresult := h.result
      rw [hrun] at hresult
      cases hresult
    · obtain ⟨hadds, -⟩ := adds_item hb hitem hroom
      exact ⟨hroom, Option.some.inj (h.found.symm.trans hadds.found)⟩
  · rintro ⟨hroom, rfl⟩
    exact (adds_item hb hitem hroom).1

end Operation

/-! ## Main statement -/

namespace Session

/-- **The append law.** Whatever is appended to whatever blob, the call succeeds exactly where header, payload and
    padding fit below the ceiling. The field then stands where the content ended, and of what was there before only
    the length of the root has changed, which is the new size. A call that fails changes nothing, not even what is
    allocated. The same is true of the buffers. -/
theorem append_law (n : Nat) (history : List Step) (i : Nat) {b : Blob} (hb : ((start n).run history).blob i = b)
    {op : Operation Nat} {header : Header} {payload : Bytes} (hop : op.appended? = some (header, payload)) :
    ((∃ offset, (op.run b).result = .ok (some offset)) ↔
        b.size + alignUp (headerSize + payload.length) ≤ min b.config.maxSize (2 ^ 24 - 1)) ∧
      (∀ offset, (op.run b).result = .ok (some offset) →
        offset = b.size ∧ b.Gained (op.run b).blob (.padded header payload) ∧
          header.rawLength = headerSize + payload.length) ∧
      ((¬∃ offset, (op.run b).result = .ok (some offset)) →
        ∃ limit, (op.run b).result = .error (.sizeLimit limit) ∧ (op.run b).blob = b) ∧
      b.memory.run? op = some ((op.run b).result, (op.run b).blob.memory) ∧
      (op.run b).blob.memory.content? = some (op.run b).blob.content := by
  have hsound : b.Sound := hb ▸ ((Sound.start n).run history).blob i
  have hlimit : min b.config.maxSize (2 ^ 24 - 1) = b.config.limit := rfl
  rw [hlimit]
  -- whether there is room decides everything else; a failure is the same on both sides, and so is a success
  rcases Nat.lt_or_ge b.config.limit (b.size + alignUp (headerSize + payload.length)) with hexceeds | hfits
  case inl =>
    obtain ⟨limit, hrun⟩ := Operation.run_of_exceeds hop hexceeds
    have hmemory := Buffer.run?_memory hsound op
    rw [hrun] at hmemory ⊢
    refine ⟨⟨nofun, fun h => absurd h (Nat.not_le.mpr hexceeds)⟩, nofun, fun _ => ⟨limit, rfl, rfl⟩, hmemory,
      Buffer.content?_memory hsound⟩
  case inr =>
    obtain ⟨hresult, hgained, hraw⟩ := Operation.run_of_fits hsound hop hfits
    have hafter := (Operation.run_sound hsound op (Operation.behind_of_appended? hop)).1
    refine ⟨⟨fun _ => hfits, fun _ => ⟨_, hresult⟩⟩, ?_, fun h => absurd ⟨_, hresult⟩ h,
      Buffer.run?_memory hsound op, Buffer.content?_memory hafter⟩
    -- the offset that is returned is the only one
    intro offset hoffset
    rw [hresult] at hoffset
    cases hoffset
    exact ⟨rfl, hgained, hraw⟩

/-- A root whose length is no multiple of four, under a ceiling that leaves room for twelve more bytes. -/
def sampleRagged : List Step := [.make 0 (.adopt { maxSize := 20 } [0x09, 0, 0, 5, 0x6b])]

/-- A field of no known type, with the flag, of which most of the payload is missing. -/
def sampleForeign : Field := ⟨.ofWord 0xcd00000b, [1, 2]⟩

theorem append_law_sampleForeign :
    ∃ b after, ((start 1).run sampleRagged).blob 0 = b ∧
      (Operation.putField sampleForeign : Operation Nat).appended? =
        some (sampleForeign.header, [1, 2, 0, 0, 0, 0, 0]) ∧
      ((Operation.putField sampleForeign).run b).blob = after ∧
      ((Operation.putField sampleForeign).run b).result = .ok (some 8) ∧
      b.Gained after (.padded sampleForeign.header [1, 2, 0, 0, 0, 0, 0]) ∧
      b.memory.run? (.putField sampleForeign) = some (.ok (some 8), after.memory) ∧
      after.memory.content? = some after.content := by
  have hfits : (((start 1).run sampleRagged).blob 0).size + alignUp (headerSize + 7) ≤
      min (((start 1).run sampleRagged).blob 0).config.maxSize (2 ^ 24 - 1) := by decide +kernel
  have hsize : (((start 1).run sampleRagged).blob 0).size = 8 := by decide +kernel
  have happended : (Operation.putField sampleForeign : Operation Nat).appended? =
      some (sampleForeign.header, [1, 2, 0, 0, 0, 0, 0]) := rfl
  obtain ⟨hiff, hgained, -, hmemory, hcontent⟩ := append_law 1 sampleRagged 0 rfl happended
  obtain ⟨offset, hresult⟩ := hiff.mpr hfits
  obtain ⟨rfl, hgained, -⟩ := hgained offset hresult
  rw [hresult] at hmemory
  rw [hsize] at hresult hmemory
  exact ⟨_, _, rfl, happended, rfl, hresult, hgained, hmemory, hcontent⟩

end Session

end FieldTree
