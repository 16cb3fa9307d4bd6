import FieldTree.Proofs.AppendLaw

/-!
# Copies

A field is copied byte by byte, from its header on. If it was there in full, with zeros behind its payload, the
copy is the same field, whatever its tag and its flag are. Only of a field that states no length at all no byte is
copied: what is read in its place is a field of the same type that states the length of a header.

## Architecture

- `Field.Readable`: the fields that a reader can meet.
- `Field.Intact`: a field in full, with zeros behind its payload.
- `Field.Intact.padded_payload`: padding an intact field anew changes nothing.
- `Field.recopied`, `Field.Intact.laid_eq`: what a copy is read as.
- `Session.field?_copy`: **the main statement**, for fields from elsewhere and for fields of the same blob.
- `Session.putCopy_clone`: a copy inside a blob is the copy of what a clone of the blob shows there, at whatever
  offset.
-/

namespace FieldTree

namespace Field

variable {f : Field}

/-! ## Fields that are read -/

/-- The fields that a reader can meet. -/
inductive Readable : Field → Prop where
  /-- the field in front of some bytes -/
  | front {bytes : Bytes} {f : Field} : ofBytes? bytes = some f → Readable f
  /-- a child of a field that was met -/
  | child {f c : Field} : Readable f → c ∈ f.children → Readable c

/-- **A child is the field in front of some bytes as well.** -/
theorem Readable.exists_ofBytes? (h : f.Readable) : ∃ bytes, ofBytes? bytes = some f := by
  induction h with
  | front hread => exact ⟨_, hread⟩
  | @child f c _ hmem ih =>
    obtain ⟨bytes, hread⟩ := ih
    obtain ⟨placed, hplaced, rfl⟩ := List.mem_map.mp hmem
    exact ⟨_, (walk_placedChildren hread).found placed hplaced⟩

theorem Readable.length_body_le (h : f.Readable) : f.body.length ≤ bodyRoom f.header := by
  obtain ⟨bytes, hread⟩ := h.exists_ofBytes?
  obtain ⟨header, hheader⟩ := Header.exists_ofBytes? (headerSize_le_of_ofBytes? hread)
  rw [Header.eq_toBytes_append hheader, ofBytes?_header] at hread
  cases hread
  exact List.length_take_le _ _

/-- More bytes behind a field that is there in full change nothing. -/
theorem ofBytes?_append {bytes : Bytes} (hread : ofBytes? bytes = some f) (hfull : f.paddedLength ≤ f.bytes.length)
    (rest : Bytes) : ofBytes? (bytes ++ rest) = some f := by
  obtain ⟨header, hheader⟩ := Header.exists_ofBytes? (headerSize_le_of_ofBytes? hread)
  have hsplit := Header.eq_toBytes_append hheader
  generalize bytes.drop headerSize = tail at hsplit
  subst hsplit
  rw [ofBytes?_header] at hread
  cases hread
  have hroom : bodyRoom header ≤ tail.length := by
    simp only [paddedLength, Field.bytes, List.length_append, Header.length_toBytes, List.length_take] at hfull
    unfold bodyRoom headerSize at *
    omega
  rw [List.append_assoc, ofBytes?_header, List.take_append_of_le_length hroom]

/-! ## Fields that are intact -/

/-- A field is there in full, and what lies between its length and its padded length is zero. -/
structure Intact (f : Field) : Prop where
  readable : f.Readable
  full : f.paddedLength ≤ f.bytes.length
  clear : f.bytes.slice f.rawLength f.paddedLength = Bytes.zeros (f.paddedLength - f.rawLength)

/-- Of a length below a header's, the last byte is part of the padding, and it is not zero. -/
theorem Intact.headerSize_le (h : f.Intact) (hpos : f.rawLength ≠ 0) : headerSize ≤ f.rawLength := by
  by_contra hlong
  have hshort : f.header.rawLength < headerSize := Nat.not_le.mp hlong
  obtain ⟨first, hfirst⟩ := f.header.exists_toBytes_eq
  have hclear := h.clear
  rw [bytes, hfirst f.header rfl rfl hshort, paddedLength, Header.paddedLength] at hclear
  simp only [rawLength] at hpos hclear
  generalize f.header.rawLength = n at hpos hshort hclear
  obtain rfl | rfl | rfl : n = 1 ∨ n = 2 ∨ n = 3 := by
    unfold headerSize at hshort
    omega
  all_goals simp [Bytes.slice, Bytes.zeros, alignUp, List.replicate] at hclear

/-- **Padding an intact field anew changes nothing.** -/
theorem Intact.padded_payload (h : f.Intact) (hpos : f.rawLength ≠ 0) : padded f.header f.payload = f := by
  have hlow := h.headerSize_le hpos
  have hle : f.rawLength ≤ f.paddedLength := le_alignUp _
  have hraw : f.rawLength = headerSize + f.header.dataLength := by
    rw [Header.dataLength]
    exact (Nat.add_sub_cancel' hlow).symm
  have hall : f.bytes.length = f.paddedLength := by
    have hbody := h.readable.length_body_le
    have hfull := h.full
    rw [bytes, List.length_append, Header.length_toBytes] at hfull ⊢
    unfold bodyRoom paddedLength headerSize at *
    omega
  -- the payload is there in full, so nothing is missing of it
  have hpayload : f.payload = f.body.take f.header.dataLength := by
    have hlength : f.header.dataLength ≤ f.body.length := by
      rw [bytes, List.length_append, Header.length_toBytes] at hall
      unfold headerSize at *
      omega
    rw [payload, data, List.length_take, Nat.min_eq_left hlength, Nat.sub_self]
    exact List.append_nil _
  -- what follows it is the padding
  have hpadding : f.body.drop f.header.dataLength = Bytes.zeros (f.paddedLength - f.rawLength) := by
    have hclear := h.clear
    rw [Bytes.slice, List.take_of_length_le (Nat.le_of_eq hall), hraw, ← List.drop_drop, drop_headerSize_bytes,
      ← hraw] at hclear
    exact hclear
  have hstated : alignUp (headerSize + f.payload.length) - (headerSize + f.payload.length) =
      f.paddedLength - f.rawLength := by
    rw [length_payload, ← hraw]
    rfl
  rw [padded, hstated, ← hpadding, hpayload, List.take_append_drop]

/-! ## Copies of intact fields -/

/-- What a copy of a field is read as. -/
def recopied (f : Field) : Field := if f.rawLength = 0 then ⟨.new f.type headerSize, []⟩ else f

theorem recopied_of_zero (hzero : f.rawLength = 0) : f.recopied = ⟨.new f.type headerSize, []⟩ := if_pos hzero

theorem recopied_of_ne_zero (hpos : f.rawLength ≠ 0) : f.recopied = f := if_neg hpos

theorem rawLength_recopied_ne_zero (f : Field) : f.recopied.rawLength ≠ 0 := by
  by_cases hzero : f.rawLength = 0
  case pos =>
    have hlow : headerSize ≤ maxLength := by decide
    rw [recopied_of_zero hzero, rawLength, Header.rawLength_new f.type (Nat.le_refl _) hlow]
    exact Nat.succ_ne_zero 3
  case neg => rwa [recopied_of_ne_zero hzero]

/-- No byte is copied of a field that states no length, and the header that is written in advance stays. -/
theorem laid_of_zero (hzero : f.rawLength = 0) : f.laid f.copied = (Header.new f.type headerSize).toBytes := by
  have hempty : f.header.dataLength = 0 := by
    rw [Header.dataLength, show f.header.rawLength = 0 from hzero, Nat.zero_sub]
  have hroom : f.room = (Header.new f.type headerSize).toBytes ++ [] := by
    rw [room_eq, hempty]
    rfl
  have hlow : headerSize ≤ maxLength := by decide
  have hraw := Header.rawLength_new f.type (Nat.le_refl headerSize) hlow
  rw [laid, copied_of_zero hzero, Bytes.patch, Bytes.clearPadding, hroom, Header.ofBytes?_toBytes]
  dsimp only
  rw [Header.paddedLength, hraw, List.append_nil]
  rfl

/-- **What is laid down for an intact field** can be read as the field again, unless it states no length. -/
theorem Intact.laid_eq (h : f.Intact) : f.laid f.copied = f.recopied.bytes := by
  by_cases hzero : f.rawLength = 0
  case pos =>
    rw [laid_of_zero hzero, recopied_of_zero hzero]
    exact (List.append_nil _).symm
  case neg => rw [laid_copied (h.headerSize_le hzero), h.padded_payload hzero, recopied_of_ne_zero hzero]

theorem Intact.length_body_recopied_le (h : f.Intact) : f.recopied.body.length ≤ bodyRoom f.recopied.header := by
  by_cases hzero : f.rawLength = 0
  case pos =>
    rw [recopied_of_zero hzero]
    exact Nat.zero_le _
  case neg =>
    rw [recopied_of_ne_zero hzero]
    exact h.readable.length_body_le

end Field

/-! ## Main statement -/

namespace Blob

variable {b : Blob} {f : Field}

/-- **Where there is room for an intact field, a copy of it is gained.** -/
theorem putField_gained (hb : b.Sound) (hf : f.Intact)
    (hroom : b.size + alignUp (headerSize + f.header.dataLength) ≤ b.config.limit) :
    ∃ after, b.putField f = .ok (b.size, after) ∧ b.Gained after f.recopied := by
  have hnone : b.refusal? f.header.dataLength = none := refusal?_eq_none hroom
  have e := copyOver_extends hb hnone f.copied
  rw [hf.laid_eq] at e
  refine ⟨b.copyOver f f.copied, ?_, e.gains hb.toFormed hf.length_body_recopied_le⟩
  rw [putField, hnone]
  rfl

/-- A field that is there in full stays where it is when another one is gained. -/
theorem Gained.field?_of_full {after : Blob} {g : Field} (h : b.Gained after g) (hb : b.Formed) {source : Nat}
    (hsource : headerSize ≤ source) (hf : b.field? source = some f) (hfull : f.paddedLength ≤ f.bytes.length) :
    after.field? source = some f := by
  have hinside := field?_inside hb hf
  have hheader := f.headerSize_le_bytes
  obtain ⟨i, rfl⟩ := Nat.exists_eq_add_of_le hsource
  -- behind the root, what is read at any offset of the old content goes on with the new field
  have hdrop : after.content.drop (headerSize + i) = b.content.drop (headerSize + i) ++ g.bytes := by
    have hlength : i ≤ (b.content.drop headerSize).length := by
      rw [List.length_drop, hb.length_content]
      omega
    have hfront : after.content.drop headerSize = b.content.drop headerSize ++ g.bytes := by
      rw [h.content, List.append_assoc]
      exact List.drop_left' (Header.length_toBytes _)
    rw [← List.drop_drop, hfront, List.drop_append_of_le_length hlength, List.drop_drop]
  have hread : Field.ofBytes? (b.content.drop (headerSize + i)) = some f := by
    unfold field? at hf
    split at hf
    · cases hf
    · exact hf
  have hstays : ¬after.size < headerSize + i + headerSize := by
    rw [h.size]
    omega
  rw [field?, if_neg hstays, hdrop]
  exact Field.ofBytes?_append hread hfull g.bytes

end Blob

namespace Session

/-- **Copies are equal to their originals**, unless these state no length at all. Where there is room for a field
    that is there in full and clear behind its payload, whatever its tag and flag are, a copy of it comes to stand
    where the content ended, and is read as the same field. Of a field that states no length, a field of its type
    that states the length of a header is read instead, which is not the same. A copy of a field that stands in the
    blob itself is no different, and the field stays what it was. -/
theorem field?_copy (n : Nat) (history : List Step) (i : Nat) {b : Blob} (hb : ((start n).run history).blob i = b)
    {f : Field} (hf : f.Intact)
    (hroom : b.size + alignUp (headerSize + f.header.dataLength) ≤ min b.config.maxSize (2 ^ 24 - 1)) :
    ∃ after g, ((Operation.putField f).run b).result = .ok (some b.size) ∧
      ((Operation.putField f).run b).blob = after ∧ after.field? b.size = some g ∧
      (g.paddedLength = f.paddedLength ∧ g.bytes = f.bytes ↔ f.rawLength ≠ 0) ∧
      (f.rawLength ≠ 0 → g = f) ∧ (f.rawLength = 0 → g = ⟨.new f.type headerSize, []⟩) ∧
      ∀ source, headerSize ≤ source → b.field? source = some f →
        ((Operation.putCopy source).run b).result = .ok (some b.size) ∧
          ((Operation.putCopy source).run b).blob = after ∧ after.field? source = some f := by
  have hsound : b.Sound := hb ▸ ((Sound.start n).run history).blob i
  obtain ⟨after, hput, hgained⟩ := Blob.putField_gained hsound hf hroom
  have hrun : ((Operation.putField f).run b).result = .ok (some b.size) ∧
      ((Operation.putField f).run b).blob = after := by
    rw [Operation.run, hput]
    exact ⟨rfl, rfl⟩
  refine ⟨after, f.recopied, hrun.1, hrun.2, hgained.found, ⟨?_, ?_⟩, Field.recopied_of_ne_zero,
    Field.recopied_of_zero, ?_⟩
  · rintro ⟨hpadded, -⟩ hzero
    -- a copy states some length
    have hpos := f.rawLength_recopied_ne_zero
    have hle : f.recopied.rawLength ≤ f.recopied.paddedLength := le_alignUp _
    rw [hpadded, Field.paddedLength, Header.paddedLength, show f.header.rawLength = 0 from hzero] at hle
    exact hpos (Nat.le_zero.mp hle)
  · intro hpos
    rw [Field.recopied_of_ne_zero hpos]
    exact ⟨rfl, rfl⟩
  · intro source hsource hread
    rw [Operation.run, Blob.putCopy_eq hsound hsource hread, hput]
    exact ⟨rfl, rfl, hgained.field?_of_full hsound.toFormed hsource hread hf.full⟩

/-- An array of a field of no known type, with the flag, whose payload is padded. -/
def sampleFlagged : Bytes := [0x09, 0, 0, 0x0c, 0xcd, 0, 0, 6, 1, 2, 0, 0]

/-- The only field in it. -/
def sampleInner : Field := ⟨.ofWord 0xcd000006, [1, 2, 0, 0]⟩

theorem field?_copy_sampleInner :
    ∃ b after, ((start 1).run [.make 0 (.adopt {} sampleFlagged)]).blob 0 = b ∧ sampleInner.Intact ∧
      ((Operation.putField sampleInner).run b).result = .ok (some 12) ∧
      ((Operation.putCopy 4).run b).result = .ok (some 12) ∧ ((Operation.putCopy 4).run b).blob = after ∧
      after.field? 12 = some sampleInner ∧ after.field? 4 = some sampleInner := by
  have hread : Field.ofBytes? sampleFlagged = some ⟨.ofWord 0x0900000c, sampleFlagged.drop headerSize⟩ := by decide
  have hintact : sampleInner.Intact := {
    readable := .child (.front hread) (by decide)
    full := by decide
    clear := by decide }
  -- the root ends behind its only child, where the copies are put
  have hsize : (((start 1).run [.make 0 (.adopt {} sampleFlagged)]).blob 0).size = 12 := by decide +kernel
  have hroom : (((start 1).run [.make 0 (.adopt {} sampleFlagged)]).blob 0).size +
      alignUp (headerSize + sampleInner.header.dataLength) ≤
        min (((start 1).run [.make 0 (.adopt {} sampleFlagged)]).blob 0).config.maxSize (2 ^ 24 - 1) := by
    decide +kernel
  have hsource : (((start 1).run [.make 0 (.adopt {} sampleFlagged)]).blob 0).field? 4 = some sampleInner := by
    decide +kernel
  obtain ⟨after, g, hresult, hafter, hcopy, -, hsame, -, hinside⟩ := field?_copy 1 _ 0 rfl hintact hroom
  obtain ⟨hresult', hafter', hstays⟩ := hinside 4 (by decide) hsource
  obtain rfl := hsame (by decide)
  rw [hsize] at hresult hresult' hcopy
  exact ⟨_, after, rfl, hintact, hresult, hresult', hafter', hcopy, hstays⟩

/-- An array of a field that states no length. -/
def sampleLengthless : Bytes := [0x09, 0, 0, 8, 3, 0, 0, 0]

/-- The copy of a field that states no length is another field. -/
theorem copy_ne_sampleLengthless :
    ∃ f g : Field, (Field.ofBytes? sampleLengthless).map Field.children = some [f] ∧
      f.paddedLength ≤ f.bytes.length ∧
      f.bytes.slice f.rawLength f.paddedLength = Bytes.zeros (f.paddedLength - f.rawLength) ∧
      Blob.new.size + alignUp (headerSize + f.header.dataLength) ≤
        min Blob.new.config.maxSize (2 ^ 24 - 1) ∧
      ((Operation.putField f).run .new).result = .ok (some 4) ∧
      ((Operation.putField f).run .new).blob.field? 4 = some g ∧
      f.bytes = [3, 0, 0, 0] ∧ g.bytes = [3, 0, 0, 4] ∧ g ≠ f := by
  refine ⟨⟨.ofWord 0x03000000, []⟩, ⟨.ofWord 0x03000004, []⟩, ?_⟩
  decide +kernel

end Session

/-! ## Copies at any offset

An offset may be out of date, and what is read there need not be a field that was ever written. It is copied all
the same, and as it was before the copy. -/

namespace Operation

variable {b : Blob} {source : Nat}

theorem run_putCopy_of_none (hf : b.field? source = none) :
    (putCopy source).run b = ⟨.error (.malformed source .noField), b, []⟩ := by
  rw [run, Blob.putCopy, hf]
  rfl

/-- **A copy in place is a copy of what was read before**, entries in the journal included. -/
theorem run_putCopy (hb : b.Sound) (hsource : headerSize ≤ source) {f : Field} (hf : b.field? source = some f) :
    (putCopy source).run b = (putField f).run b := by
  rw [run, run, Blob.putCopy_eq hb hsource hf]
  rfl

/-- Nothing but the lack of a field makes a source malformed. -/
theorem malformed_putCopy_iff (hb : b.Sound) (hsource : headerSize ≤ source) :
    (∃ offset what, ((putCopy source).run b).result = .error (.malformed offset what)) ↔
      b.field? source = none := by
  constructor
  · rintro ⟨offset, what, hresult⟩
    cases hf : b.field? source with
    | none => rfl
    | some f =>
      -- the copy of a field that is there can only lack room
      rw [run_putCopy hb hsource hf, run] at hresult
      cases hput : b.putField f with
      | error limit => rw [hput] at hresult; cases hresult
      | ok written => rw [hput] at hresult; cases hresult
  · intro hf
    rw [run_putCopy_of_none hf]
    exact ⟨source, .noField, rfl⟩

end Operation

namespace Session

/-- A clone of a blob is the blob. -/
theorem blob_step_clone {s : Session} {i j : Nat} (hi : i < s.blobs.length) (hj : j < s.blobs.length) :
    (s.step (.clone i j)).blob j = s.blob i := by
  have hb : s.blobs[i]? = some (s.blob i) := by
    rw [blob, List.getElem?_eq_getElem hi, Option.getD_some]
  rw [step, hb]
  apply blob_eq
  exact List.getElem?_set_self hj

/-- **A copy inside a blob agrees with a copy from a clone of it.** The offset of the source was handed out
    anywhere, in another blob or before a reset, so anything at all may be read there. Where nothing is read,
    and only there, the source is malformed and the blob stays as it is. Of what a clone from before shows there,
    a copy in place and a copy from the clone have the same result and leave the same content, the same capacity
    and the same entries in the journal, and so they do in memory, where no access is out of range. -/
theorem putCopy_clone (n : Nat) (history : List Step) {s : Session} (hs : (start n).run history = s)
    {i j : Nat} (hi : i < s.blobs.length) (hj : j < s.blobs.length) {b : Blob} (hb : s.blob i = b)
    (m : Nat) (elsewhere : List Step) {known : Session} (hknown : (start m).run elsewhere = known)
    {source : Nat} (hsource : source ∈ known.refs ++ known.handles) :
    ((∃ offset what, ((Operation.putCopy source).run b).result = .error (.malformed offset what)) ↔
        b.field? source = none) ∧
      (b.field? source = none →
        (Operation.putCopy source).run b = ⟨.error (.malformed source .noField), b, []⟩) ∧
      (b.field? source ≠ none →
        ∃ g outcome, ((s.step (.clone i j)).blob j).field? source = some g ∧
          (Operation.putCopy source).run b = outcome ∧ (Operation.putField g).run b = outcome ∧
          b.memory.run? (.putCopy source) = some (outcome.result, outcome.blob.memory) ∧
          b.memory.run? (.putField g) = some (outcome.result, outcome.blob.memory)) := by
  have hsound : b.Sound := hb ▸ (hs ▸ (Sound.start n).run history : s.Sound).blob i
  have hplaced : Placed source := ((Sound.start m).run elsewhere).placed (hknown ▸ hsource)
  refine ⟨Operation.malformed_putCopy_iff hsound hplaced.2, Operation.run_putCopy_of_none, ?_⟩
  intro hfound
  obtain ⟨g, hg⟩ := Option.ne_none_iff_exists'.mp hfound
  have hrun := Operation.run_putCopy hsound hplaced.2 hg
  refine ⟨g, _, ?_, hrun, rfl, ?_, Buffer.run?_memory hsound (.putField g)⟩
  · rw [blob_step_clone hi hj, hb]
    exact hg
  · rw [← hrun]
    exact Buffer.run?_memory hsound (.putCopy source)

/-- A payload that spells the header of a field that goes on far behind the content. -/
def samplePretence : List Step := [.perform 0 (.putScalar .binary [1, 2, 3, 4, 0xcd, 0, 0, 0xff, 5, 6, 7])]

/-- The second field of another blob starts where that header is. -/
def sampleElsewhere : List Step := [.perform 0 (.putInt 1), .perform 0 (.putInt 2)]

theorem putCopy_clone_samplePretence :
    ∃ s b known, (start 2).run samplePretence = s ∧ 0 < s.blobs.length ∧ 1 < s.blobs.length ∧ s.blob 0 = b ∧
      (start 1).run sampleElsewhere = known ∧ 12 ∈ known.refs ++ known.handles ∧
      b.size = 20 ∧ (b.field? 12).map Field.rawLength = some 255 ∧ b.field? 12 ≠ none ∧
      ∃ g outcome, ((s.step (.clone 0 1)).blob 1).field? 12 = some g ∧
        (Operation.putCopy 12).run b = outcome ∧ (Operation.putField g).run b = outcome ∧
        b.memory.run? (.putCopy 12) = some (outcome.result, outcome.blob.memory) ∧
        b.memory.run? (.putField g) = some (outcome.result, outcome.blob.memory) := by
  have hi : 0 < ((start 2).run samplePretence).blobs.length := by decide +kernel
  have hj : 1 < ((start 2).run samplePretence).blobs.length := by decide +kernel
  have hsource : 12 ∈ ((start 1).run sampleElsewhere).refs ++ ((start 1).run sampleElsewhere).handles := by
    decide +kernel
  have hsize : (((start 2).run samplePretence).blob 0).size = 20 := by decide +kernel
  have hlength : ((((start 2).run samplePretence).blob 0).field? 12).map Field.rawLength = some 255 := by
    decide +kernel
  have hfound : (((start 2).run samplePretence).blob 0).field? 12 ≠ none := by
    intro hnone
    rw [hnone] at hlength
    cases hlength
  obtain ⟨-, -, hcopy⟩ := putCopy_clone 2 samplePretence rfl hi hj rfl 1 sampleElsewhere rfl hsource
  exact ⟨_, _, _, rfl, hi, hj, rfl, rfl, hsource, hsize, hlength, hfound, hcopy hfound⟩

end Session

end FieldTree
