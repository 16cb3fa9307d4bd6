import FieldTree.Proofs.Children
import FieldTree.Proofs.Invariant

/-!
# Writes

A write is refused, or it appends an item, or it appends a copy of a field. A copy is written over new room at
the end of a blob, from the header on, and then its padding is cleared. A field that states less than a header
is a case of its own: of one that states nothing no byte is copied, and of one that states one to three bytes
the length itself is cleared.

## Architecture

- `Field.laid`: what stands at the end of a blob after bytes were copied over new room for a field.
- `Blob.body_copyOver`: a copy extends the body by that and changes nothing else of it.
- `Blob.putCopy_eq`: a copy inside a blob is a copy of the field that is read there.
- `Operation.Wrote`, `Operation.run_wrote`: **all that a write can do.**
- `Blob.Puts`, `Operation.run_puts`: a field that is put can be read from bytes of its own.
-/

namespace FieldTree

/-! ## Padding -/

/-- The bytes with what lies between the length and the padded length of the field in front cleared. -/
def Bytes.clearPadding (bytes : Bytes) : Bytes :=
  match Header.ofBytes? bytes with
  | none => bytes
  | some h => bytes.patch h.rawLength (.zeros (h.paddedLength - h.rawLength))

@[simp] theorem Bytes.length_clearPadding (bytes : Bytes) : bytes.clearPadding.length = bytes.length := by
  unfold clearPadding
  split
  · rfl
  · exact length_patch _ _ _

namespace Header

/-- A header that states no length at all. -/
def withoutLength (h : Header) : Header := { h with length := ⟨0, Nat.two_pow_pos 24⟩ }

theorem rawLength_withoutLength (h : Header) : h.withoutLength.rawLength = 0 := rfl

/-- A length below a header's takes up the last byte of the header alone. -/
theorem exists_toBytes_eq (h : Header) :
    ∃ first : UInt8, ∀ h' : Header, h'.named = h.named → h'.tag = h.tag → h'.rawLength < headerSize →
      h'.toBytes = [first, 0, 0, UInt8.ofNat h'.rawLength] := by
  refine ⟨UInt8.ofNat ((if h.named then 128 else 0) + h.tag), ?_⟩
  intro h' hnamed htag hshort
  rw [toBytes_eq, hnamed, htag]
  generalize h'.rawLength = n at hshort
  match n, hshort with
  | 0, _ | 1, _ | 2, _ | 3, _ => rfl

/-- Clearing the padding of a header that states one to three bytes clears its length. -/
theorem clearPadding_of_short {h : Header} (hpos : 0 < h.rawLength) (hshort : h.rawLength < headerSize)
    (rest : Bytes) : Bytes.clearPadding (h.toBytes ++ rest) = h.withoutLength.toBytes ++ rest := by
  obtain ⟨first, hfirst⟩ := h.exists_toBytes_eq
  have hpadded : h.paddedLength = headerSize := by
    unfold paddedLength alignUp headerSize at *
    omega
  have hread := ofBytes?_toBytes h rest
  rw [Bytes.clearPadding, hread]
  dsimp only
  rw [hpadded, hfirst h rfl rfl hshort, hfirst h.withoutLength rfl rfl (Nat.zero_lt_succ 3),
    rawLength_withoutLength]
  generalize h.rawLength = n at hpos hshort
  match n, hpos, hshort with
  | 1, _, _ | 2, _, _ | 3, _, _ => rfl

/-- Clearing the padding never makes a field longer. -/
theorem ofBytes?_clearPadding {bytes : Bytes} {h : Header} (hread : ofBytes? bytes = some h) :
    ∃ h', ofBytes? bytes.clearPadding = some h' ∧ h'.paddedLength ≤ h.paddedLength := by
  have hsplit := eq_toBytes_append hread
  rcases Nat.eq_zero_or_pos h.rawLength with hzero | hpos
  case inl =>
    -- there is nothing to clear
    have hnothing : bytes.clearPadding = bytes := by
      simp only [Bytes.clearPadding, hread, paddedLength, hzero]
      rfl
    rw [hnothing]
    exact ⟨h, hread, Nat.le_refl _⟩
  case inr =>
    rcases Nat.lt_or_ge h.rawLength headerSize with hshort | hlow
    case inl =>
      have hnone : h.withoutLength.paddedLength = 0 := by
        rw [paddedLength, rawLength_withoutLength]
        rfl
      refine ⟨h.withoutLength, ?_, hnone ▸ Nat.zero_le _⟩
      rw [hsplit, clearPadding_of_short hpos hshort, ofBytes?_toBytes]
    case inr =>
      -- what is cleared begins behind the header
      refine ⟨h, ?_, Nat.le_refl _⟩
      obtain ⟨i, hi⟩ := Nat.exists_eq_add_of_le hlow
      have hfront : h.rawLength = h.toBytes.length + i := by rw [length_toBytes, hi, headerSize]
      simp only [Bytes.clearPadding, hread]
      rw [hsplit, hfront, Bytes.patch_append_right, ofBytes?_toBytes]

end Header

/-! ## Copies over new room -/

namespace Field

/-- New room for a field: a header of its own and zeros. -/
def room (f : Field) : Bytes := Item.toBytes ⟨f.type, .zeros f.header.dataLength⟩

theorem length_room (f : Field) : f.room.length = alignUp (statedLength f.header.dataLength) := by
  rw [room, Item.toBytes_length, Bytes.length_zeros]

/-- What stands in the room for a field once some bytes were copied over it. -/
def laid (f : Field) (copy : Bytes) : Bytes := (f.room.patch 0 copy).clearPadding

@[simp] theorem length_laid (f : Field) (copy : Bytes) : (f.laid copy).length = f.room.length := by
  rw [laid, Bytes.length_clearPadding, Bytes.length_patch]

/-- A field whose padded length fits its bytes is read from them, whatever follows. -/
theorem exists_ofBytes?_append {bytes : Bytes} {h : Header} (hread : Header.ofBytes? bytes = some h)
    (hfits : h.paddedLength ≤ bytes.length) :
    ∃ g : Field, g.paddedLength ≤ bytes.length ∧ ∀ rest, ofBytes? (bytes ++ rest) = some g := by
  have hroom : bodyRoom h ≤ (bytes.drop headerSize).length := by
    rw [List.length_drop]
    exact Nat.sub_le_sub_right hfits headerSize
  refine ⟨⟨h, (bytes.drop headerSize).take (bodyRoom h)⟩, hfits, ?_⟩
  intro rest
  conv_lhs => rw [Header.eq_toBytes_append hread]
  rw [List.append_assoc, ofBytes?_header, List.take_append_of_le_length hroom]

theorem headerSize_le_bytes (f : Field) : headerSize ≤ f.bytes.length := by
  rw [bytes, List.length_append, Header.length_toBytes]
  exact Nat.le_add_right _ _

theorem paddedLength_le_room (f : Field) : f.paddedLength ≤ f.room.length := by
  rw [length_room]
  simp only [paddedLength, Header.paddedLength, Header.dataLength, statedLength, alignUp, headerSize]
  omega

/-- The bytes of a field that a copy takes over: none where it states no length, and else at least a header. -/
def copied (f : Field) : Bytes := f.bytes.take (Blob.copiedLength f)

theorem copied_of_zero {f : Field} (hzero : f.rawLength = 0) : f.copied = [] := by
  have hpadded : f.paddedLength = 0 := by
    rw [paddedLength, Header.paddedLength, show f.header.rawLength = 0 from hzero]
    rfl
  rw [copied, Blob.copiedLength, hpadded, Nat.min_zero, List.take_zero]

theorem exists_copied_eq {f : Field} (hpos : 0 < f.rawLength) :
    ∃ rest, f.copied = f.header.toBytes ++ rest ∧ f.copied.length ≤ f.room.length := by
  have hpadded : headerSize ≤ f.paddedLength := by
    simp only [paddedLength, Header.paddedLength, alignUp, headerSize, rawLength] at *
    omega
  have hheader : f.header.toBytes.length ≤ Blob.copiedLength f := by
    rw [Header.length_toBytes]
    exact Nat.le_min.mpr ⟨f.headerSize_le_bytes, hpadded⟩
  refine ⟨f.body.take (Blob.copiedLength f - f.header.toBytes.length), ?_, ?_⟩
  · rw [copied, bytes, List.take_append, List.take_of_length_le hheader]
  · exact Nat.le_trans (List.length_take_le _ _) (Nat.le_trans (Nat.min_le_right _ _) f.paddedLength_le_room)

/-- The header that a copy starts with: that of the field, unless it states no length. -/
theorem exists_header?_patch_room (f : Field) :
    ∃ h, Header.ofBytes? (f.room.patch 0 f.copied) = some h ∧ h.paddedLength ≤ f.room.length := by
  -- of a field that states no length nothing is copied, and the header of the room stays
  rcases Nat.eq_zero_or_pos f.rawLength with hzero | hpos
  case inl =>
    have hempty : f.header.dataLength = 0 := by
      rw [Header.dataLength, show f.header.rawLength = 0 from hzero, Nat.zero_sub]
    refine ⟨.new f.type headerSize, ?_, ?_⟩
    · rw [copied_of_zero hzero, Bytes.patch, room, Item.toBytes, hempty, List.append_assoc,
        Header.ofBytes?_toBytes]
      rfl
    · rw [length_room, hempty]
      exact Nat.le_of_eq rfl
  case inr =>
    obtain ⟨rest, hcopied, hfits⟩ := exists_copied_eq hpos
    refine ⟨f.header, ?_, f.paddedLength_le_room⟩
    rw [Bytes.patch_eq (by rw [Nat.zero_add]; exact hfits), List.take_zero, List.nil_append, hcopied,
      List.append_assoc, Header.ofBytes?_toBytes]

/-- **A copy is a field that ends inside its room**, whatever comes behind it. -/
theorem exists_ofBytes?_laid (f : Field) :
    ∃ g : Field, g.paddedLength ≤ (f.laid f.copied).length ∧
      ∀ rest, ofBytes? (f.laid f.copied ++ rest) = some g := by
  obtain ⟨h, hread, hfits⟩ := f.exists_header?_patch_room
  obtain ⟨h', hread', hshorter⟩ := Header.ofBytes?_clearPadding hread
  apply exists_ofBytes?_append hread'
  rw [← laid, length_laid]
  exact Nat.le_trans hshorter hfits

end Field

namespace Blob

variable {b : Blob} {f : Field}

/-- The padding of the field at the end of a blob. -/
theorem content_clearPadding {front last : Bytes} (e : b.content = front ++ last) :
    (b.clearPadding front.length).content = front ++ last.clearPadding := by
  have hheader : b.storage.header? front.length = Header.ofBytes? last := by
    rw [Storage.header?_eq]
    change Header.ofBytes? (b.content.drop front.length) = _
    rw [e, List.drop_left]
  rw [clearPadding, Bytes.clearPadding, hheader]
  cases Header.ofBytes? last with
  | none => exact e
  | some h =>
    dsimp only
    rw [content_patch, e, Bytes.patch_append_right]

theorem appendRoom_extends (hb : b.Sound) (hroom : b.refusal? f.header.dataLength = none) :
    b.Extends (b.appendRoom f) f.room := by
  apply append_extends hb.toFormed
  rw [← stopOf_eq, Bytes.length_zeros]
  exact refusal?_eq_none_iff.mp hroom

/-- A blob with new room for a field at its end, and bytes copied over that. -/
def copyOver (b : Blob) (f : Field) (copy : Bytes) : Blob :=
  ((b.appendRoom f).patch b.size copy).clearPadding b.size

/-- **A copy extends the body** by what it lays down. -/
theorem body_copyOver (hb : b.Sound) (hroom : b.refusal? f.header.dataLength = none) (copy : Bytes) :
    (b.copyOver f copy).body = b.body ++ f.laid copy := by
  have e := appendRoom_extends hb hroom
  have hoffset : b.size = headerSize + (b.body.length + 0) := hb.toFormed.size_eq
  -- the content up to the room, and the room with the copy
  have hcontent : ((b.appendRoom f).patch b.size copy).content =
      ((b.appendRoom f).root.toBytes ++ b.body) ++ f.room.patch 0 copy := by
    rw [hoffset, content_patch_behind e.formed, e.body_eq, Bytes.patch_append_right, List.append_assoc]
  have hfront : b.size = ((b.appendRoom f).root.toBytes ++ b.body).length := by
    rw [List.length_append, Header.length_toBytes, hb.toFormed.size_eq, headerSize]
  have hcleared := content_clearPadding hcontent
  rw [← hfront, List.append_assoc] at hcleared
  exact body_of_content hcleared

theorem drop_content (b : Blob) (i : Nat) : b.content.drop (headerSize + i) = b.body.drop i := by
  rw [body, List.drop_drop]

/-- A field is the front of what follows its offset. -/
theorem bytes_of_field? {offset : Nat} (hf : b.field? offset = some f) :
    f.bytes = (b.content.drop offset).take f.stride := by
  unfold field? at hf
  split at hf
  · cases hf
  · exact Field.bytes_of_ofBytes? hf

/-- Behind the root, what is read where a field stands is not changed by new room at the end. -/
theorem slice_appendRoom (hb : b.Sound) (hroom : b.refusal? f.header.dataLength = none) {source : Nat}
    (hsource : headerSize ≤ source) (hf : b.field? source = some f) :
    (b.appendRoom f).storage.slice source (source + copiedLength f) = f.copied := by
  have e := appendRoom_extends hb hroom
  have hinside := field?_inside hb.toFormed hf
  have hsize := hb.toFormed.size_eq
  have hbytes := bytes_of_field? hf
  have hcopied : copiedLength f ≤ f.bytes.length := Nat.min_le_left _ _
  have hstride : copiedLength f ≤ f.stride := by
    refine Nat.le_trans hcopied ?_
    rw [hbytes]
    exact List.length_take_le _ _
  obtain ⟨i, rfl⟩ := Nat.exists_eq_add_of_le hsource
  have hstart : i ≤ b.body.length := by omega
  -- the copied bytes end where the old content ends at the latest
  have hlength : copiedLength f ≤ (b.body.drop i).length := by
    rw [List.length_drop]
    omega
  rw [drop_content] at hbytes
  rw [Storage.slice_eq, Bytes.slice, List.drop_take, Nat.add_sub_cancel_left]
  change ((b.appendRoom f).content.drop (headerSize + i)).take _ = _
  rw [drop_content, e.body_eq, List.drop_append_of_le_length hstart, List.take_append_of_le_length hlength,
    Field.copied, hbytes, List.take_take, Nat.min_eq_left hstride]

/-- **A copy inside a blob is a copy of the field that is read there.** -/
theorem putCopy_eq (hb : b.Sound) {source : Nat} (hsource : headerSize ≤ source)
    (hf : b.field? source = some f) : b.putCopy source = (b.putField f).mapError .sizeLimit := by
  unfold putCopy putField
  rw [hf]
  dsimp only
  cases hroom : b.refusal? f.header.dataLength with
  | some limit => rfl
  | none =>
    dsimp only
    rw [slice_appendRoom hb hroom hsource hf]
    rfl

/-! ## Fields that are put -/

/-- A field was put: `region` came to stand at the end of the body, and from it `f` can be read, whatever comes
    to stand behind it. -/
structure Puts (b b' : Blob) (region : Bytes) (f : Field) : Prop where
  body_eq : b'.body = b.body ++ region
  fits : f.paddedLength ≤ region.length
  read : ∀ rest, Field.ofBytes? (region ++ rest) = some f

theorem exists_puts_append (hb : b.Sound) {item : Item} (hfits : b.size + item.toBytes.length ≤ b.config.limit) :
    ∃ region f, b.Puts (b.append item) region f := by
  have hheader : Header.ofBytes? item.toBytes = some (.new item.type (statedLength item.payload.length)) := by
    rw [Item.toBytes, List.append_assoc, Header.ofBytes?_toBytes]
  have hpadded : (Header.new item.type (statedLength item.payload.length)).paddedLength =
      item.toBytes.length := by
    have hlimit := b.config.limit_le
    have hstated : statedLength item.payload.length ≤ item.toBytes.length := item.le_toBytes_length
    have hlow : headerSize ≤ statedLength item.payload.length := Nat.le_add_right _ _
    have hhigh : statedLength item.payload.length ≤ maxLength := by omega
    rw [Header.paddedLength, Header.rawLength_new item.type hlow hhigh, Item.toBytes_length]
  obtain ⟨f, hf, hread⟩ := Field.exists_ofBytes?_append hheader (Nat.le_of_eq hpadded)
  exact ⟨item.toBytes, f, (append_extends hb.toFormed item hfits).body_eq, hf, hread⟩

theorem exists_puts_copyOver (hb : b.Sound) (hroom : b.refusal? f.header.dataLength = none) :
    ∃ region g, b.Puts (b.copyOver f f.copied) region g := by
  obtain ⟨g, hg, hread⟩ := f.exists_ofBytes?_laid
  exact ⟨f.laid f.copied, g, body_copyOver hb hroom _, hg, hread⟩

/-- There is room for the header of a field that was put. -/
theorem Puts.stop_le {b' : Blob} {region : Bytes} (h : b.Puts b' region f) (hb : b.Formed) (hb' : b'.Formed) :
    b.size + headerSize ≤ b'.size := by
  have hroom := Field.headerSize_le_of_ofBytes? (h.read [])
  rw [List.append_nil] at hroom
  rw [hb'.size_eq, hb.size_eq, h.body_eq, List.length_append]
  omega

end Blob

/-! ## All writes -/

namespace Operation

/-- The places that an operation mentions. -/
def places {Place : Type} : Operation Place → List Place
  | putCopy source => [source]
  | close container => [container]
  | _ => []

/-- The operations that write one field. -/
def isWrite {Place : Type} : Operation Place → Bool
  | close _ | putJson _ | resize _ | reset => false
  | _ => true

/-- All that a write can do to a blob. -/
inductive Wrote (b : Blob) : Outcome → Prop where
  /-- nothing, with a reason -/
  | refused (e : BlobError) (journal : Journal) : Wrote b ⟨.error e, b, journal⟩
  /-- to append an item -/
  | item (item : Item) (journal : Journal) : b.size + item.toBytes.length ≤ b.config.limit →
      Wrote b ⟨.ok (some b.size), b.append item, journal⟩
  /-- to append a copy of a field -/
  | field (f : Field) (journal : Journal) : b.refusal? f.header.dataLength = none →
      Wrote b ⟨.ok (some b.size), b.copyOver f f.copied, journal⟩

variable {b : Blob}

theorem wrote_put (item : Item) (note : Nat → Journal) : Wrote b (ofWrite b (b.put item) note) := by
  cases hput : b.put item with
  | error limit => exact .refused _ _
  | ok written =>
    obtain ⟨offset, after⟩ := written
    obtain ⟨rfl, rfl, hfits⟩ := Blob.put_eq_ok hput
    exact .item item _ hfits

theorem wrote_putField (f : Field) (note : Nat → Journal) : Wrote b (ofWrite b (b.putField f) note) := by
  cases hput : b.putField f with
  | error limit => exact .refused _ _
  | ok written =>
    obtain ⟨offset, after⟩ := written
    obtain ⟨hroom, rfl, rfl⟩ := Blob.putField_eq_ok hput
    exact .field f _ hroom

/-- **A write is refused, or it appends an item or a copy.** -/
theorem run_wrote (hb : b.Sound) {op : Operation Nat} (hop : op.isWrite = true)
    (hplaces : ∀ place ∈ op.places, headerSize ≤ place) : Wrote b (op.run b) := by
  cases op with
  | putScalar | putInt | putBool | putReal | putDouble | putSingle | openContainer => exact wrote_put _ _
  | putString text =>
    rw [run, Blob.putString_eq]
    exact wrote_put _ _
  | putField f => exact wrote_putField f _
  | putCopy source =>
    rw [run]
    cases hf : b.field? source with
    | none =>
      have hcopy : b.putCopy source = .error (.malformed source .noField) := by rw [Blob.putCopy, hf]
      rw [hcopy]
      exact .refused _ _
    | some f =>
      -- in place or not, it is the copy of the field that is read at the source
      rw [Blob.putCopy_eq hb (hplaces source List.mem_cons_self) hf]
      exact wrote_putField f _
  | close | putJson | resize | reset => cases hop

/-- **A field that is put starts where the content ended, and can be read from bytes of its own.** -/
theorem run_puts (hb : b.Sound) {op : Operation Nat} (hop : op.isWrite = true)
    (hplaces : ∀ place ∈ op.places, headerSize ≤ place) {offset : Nat}
    (h : (op.run b).result = .ok (some offset)) :
    offset = b.size ∧ ∃ region f, b.Puts (op.run b).blob region f := by
  have hwrote := run_wrote hb hop hplaces
  generalize op.run b = o at hwrote h ⊢
  cases hwrote with
  | refused => cases h
  | item item journal hfits =>
    cases h
    exact ⟨rfl, Blob.exists_puts_append hb hfits⟩
  | field f journal hroom =>
    cases h
    exact ⟨rfl, Blob.exists_puts_copyOver hb hroom⟩

theorem behind_of_places {op : Operation Nat} (hplaces : ∀ place ∈ op.places, headerSize ≤ place) :
    op.Behind := by
  cases op with
  | close container => exact hplaces container List.mem_cons_self
  | putScalar | putString | putInt | putBool | putReal | putDouble | putSingle | putField | putCopy
  | openContainer | putJson | resize | reset => trivial

end Operation

end FieldTree
