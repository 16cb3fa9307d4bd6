import FieldTree.Proofs.Buffer
import FieldTree.Proofs.Invariant
import Mathlib.Tactic.Conv
import Mathlib.Tactic.SplitIfs

/-!
# Blobs in Memory

A blob keeps only its content and the number of bytes that are allocated. This module shows that nothing is
lost by that: the checked writes of a buffer, done in place on the memory of a sound blob, never leave the
buffer, and what they leave is the memory of the blob that the operation gives.

## Architecture

- `Blob.memory`: the buffer of a blob, content and zeros.
- `Buffer.fill?_memory`, `Buffer.setLength?_memory`, `Buffer.clearPadding?_memory`: the primitive accesses.
- `Buffer.newField_memory`: appending a field of zeros is `Blob.append`.
- `Buffer.writeTokens?_memory`, `Buffer.decode?_memory`: texts.
- `Buffer.make?_eq`, `Buffer.run?_memory`: every origin and every operation.
-/

namespace FieldTree

/-- All bytes that are allocated for a blob. -/
def Blob.memory (b : Blob) : Buffer := ⟨b.buffer, b.config⟩

namespace Buffer

variable {m : Buffer} {b : Blob}

/-! ## Accesses in range -/

theorem read?_of_le {start stop : Nat} (hstart : start ≤ stop) (hstop : stop ≤ m.bytes.length) :
    m.read? start stop = some (m.bytes.slice start stop) := if_pos ⟨hstart, hstop⟩

theorem fill?_of_le {start room : Nat} {p : Bytes} (hp : p.length ≤ room)
    (hroom : start + room ≤ m.bytes.length) :
    m.fill? start room p = some { m with bytes := m.bytes.patch start p } := if_pos ⟨hp, hroom⟩

theorem clear?_of_le {start stop : Nat} (hstart : start ≤ stop) (hstop : stop ≤ m.bytes.length) :
    m.clear? start stop = some { m with bytes := m.bytes.patch start (.zeros (stop - start)) } :=
  if_pos ⟨hstart, hstop⟩

theorem header?_of_bytes {front rest : Bytes} {h : Header} (e : m.bytes = front ++ (h.toBytes ++ rest)) :
    m.header? front.length = some (some h) := by
  have hle : front.length ≤ m.bytes.length := by rw [e, List.length_append]; exact Nat.le_add_right _ _
  -- what is read starts with the header
  have hslice : m.bytes.slice front.length m.bytes.length = h.toBytes ++ rest := by
    rw [Bytes.slice, List.take_length, e, List.drop_left]
  rw [header?, read?_of_le hle (Nat.le_refl _), hslice, Option.map_some, Header.ofBytes?_toBytes]

/-- Bytes of the same length take the place of those behind `front`. -/
theorem write?_of_bytes {front old rest p : Bytes} (e : m.bytes = front ++ (old ++ rest))
    (hp : p.length = old.length) :
    m.write? front.length p = some { m with bytes := front ++ (p ++ rest) } := by
  have hroom : front.length + p.length ≤ m.bytes.length := by
    rw [e, List.length_append, List.length_append]; omega
  have hpatch := Bytes.patch_append_right front (old ++ rest) 0 p
  rw [Nat.add_zero, Bytes.patch_append_of_length hp] at hpatch
  rw [write?, fill?_of_le (Nat.le_refl _) hroom, e, hpatch]

theorem setLength?_of_bytes {front rest : Bytes} {h : Header} (e : m.bytes = front ++ (h.toBytes ++ rest))
    (n : Nat) :
    m.setLength? front.length n = some { m with bytes := front ++ ((h.withLength n).toBytes ++ rest) } := by
  rw [setLength?, header?_of_bytes e]
  exact write?_of_bytes e (by simp)

theorem setLength?_zero {rest : Bytes} {h : Header} (e : m.bytes = h.toBytes ++ rest) (n : Nat) :
    m.setLength? 0 n = some { m with bytes := (h.withLength n).toBytes ++ rest } := by
  have hfront : m.bytes = [] ++ (h.toBytes ++ rest) := e
  exact setLength?_of_bytes hfront n

/-! ## The memory of a blob -/

/-- The memory is the root's header, the body, and zeros. -/
theorem bytes_memory (h : b.Sound) :
    b.memory.bytes = b.root.toBytes ++ (b.body ++ .zeros (b.capacity - b.size)) := by
  rw [← List.append_assoc, ← h.toFormed.content_eq, ← h.length_content]
  rfl

theorem bytes_memory_eq (h : b.Sound) :
    b.memory.bytes = b.content ++ .zeros (b.capacity - b.size) := by
  rw [← h.length_content]
  rfl

@[simp] theorem length_memory (h : b.Sound) : b.memory.bytes.length = b.capacity := by
  have := h.size_le_capacity
  rw [bytes_memory_eq h, List.length_append, h.length_content, Bytes.length_zeros]
  omega

@[simp] theorem root_memory (h : b.Sound) : b.memory.root = b.root := by
  rw [root, bytes_memory h, Header.ofBytes?_toBytes, Option.getD_some]

@[simp] theorem size_memory (h : b.Sound) : b.memory.size = b.size := by
  rw [size, root_memory h, Blob.size]

/-- A buffer is the memory of a blob if it has the content, and zeros up to the capacity. -/
theorem eq_memory (h : b.Sound) (hbytes : m.bytes = b.content ++ .zeros (b.capacity - b.size))
    (hconfig : m.config = b.config) : m = b.memory := by
  obtain ⟨bytes, config⟩ := m
  rw [← bytes_memory_eq h] at hbytes
  cases hbytes
  cases hconfig
  rfl

/-- **Nothing behind the content is anything but zero.** -/
theorem drop_size_memory (h : b.Sound) : b.memory.bytes.drop b.size = Bytes.zeros (b.capacity - b.size) := by
  rw [bytes_memory_eq h, ← h.length_content, List.drop_left]

/-! ## Reading -/

theorem read?_memory (h : b.Sound) {start stop : Nat} (hstart : start ≤ stop) (hstop : stop ≤ b.size) :
    b.memory.read? start stop = some (b.content.slice start stop) := by
  have hcapacity := h.size_le_capacity
  have hcontent := h.length_content
  rw [read?_of_le hstart (by rw [length_memory h]; omega), bytes_memory_eq h, Bytes.slice,
    List.take_append_of_le_length (by omega)]
  rfl

/-- **The content is read from memory.** -/
theorem content?_memory (h : b.Sound) : b.memory.content? = some b.content := by
  have hmin : min b.memory.size b.memory.bytes.length = b.size := by
    rw [size_memory h, length_memory h]
    exact Nat.min_eq_left h.size_le_capacity
  rw [content?, hmin, read?_memory h (Nat.zero_le _) (Nat.le_refl _), Bytes.slice, ← h.length_content,
    List.take_length, List.drop_zero]

/-- **A field is read from memory**, at whatever offset. -/
theorem field?_memory (h : b.Sound) (offset : Nat) : b.memory.field? offset = some (b.field? offset) := by
  rw [field?, size_memory h, Blob.field?]
  split
  · rfl
  · next hin =>
    rw [read?_memory h (by omega) (Nat.le_refl _), Bytes.slice, ← h.length_content, List.take_length]
    rfl

/-- A header inside the content is the same in memory and in storage. -/
theorem exists_header? (h : b.Sound) {offset : Nat} (hoffset : offset + headerSize ≤ b.size) :
    ∃ header, b.storage.header? offset = some header ∧ b.memory.header? offset = some (some header) := by
  obtain ⟨front, header, rest, hcontent, rfl⟩ := h.toFormed.exists_split hoffset
  have hmemory : b.memory.bytes = front ++ (header.toBytes ++ (rest ++ .zeros (b.capacity - b.size))) := by
    rw [bytes_memory_eq h, hcontent, List.append_assoc, List.append_assoc]
  refine ⟨header, (b.storage.header?_eq front.length).trans ?_, header?_of_bytes hmemory⟩
  change Header.ofBytes? (b.content.drop front.length) = some header
  rw [hcontent, List.drop_left, Header.ofBytes?_toBytes]

/-! ## Changes in place -/

/-- A patch of the content is a write to memory. -/
theorem fill?_memory (h : b.Sound) {start room : Nat} {p : Bytes} (hp : p.length ≤ room)
    (hroom : start + room ≤ b.size) : b.memory.fill? start room p = some (b.patch start p).memory := by
  have hcapacity := h.size_le_capacity
  have hcontent := h.length_content
  rw [fill?_of_le hp (by rw [length_memory h]; omega), bytes_memory_eq h,
    Bytes.patch_append_left (by omega), Option.some.injEq, ← hcontent, ← Bytes.length_patch b.content start p,
    ← Blob.content_patch]
  rfl

theorem write?_memory (h : b.Sound) {start : Nat} {p : Bytes} (hp : start + p.length ≤ b.size) :
    b.memory.write? start p = some (b.patch start p).memory :=
  fill?_memory h (Nat.le_refl _) hp

/-- A length is changed in memory as in the content. -/
theorem setLength?_memory (h : b.Sound) {offset : Nat} (hoffset : offset + headerSize ≤ b.size) (n : Nat) :
    b.memory.setLength? offset n = some (b.patchLength offset n).memory := by
  obtain ⟨header, hstorage, hmemory⟩ := exists_header? h hoffset
  rw [setLength?, hmemory, Blob.patchLength, hstorage]
  exact write?_memory h (by rw [Header.length_toBytes]; exact hoffset)

/-- Clearing the padding in memory reaches no further than the buffer, and behind the content there is
    nothing to clear. -/
theorem clearPadding?_memory (h : b.Sound) {offset : Nat} (hoffset : offset + headerSize ≤ b.size) :
    b.memory.clearPadding? offset = some (b.clearPadding offset).memory := by
  obtain ⟨header, hstorage, hmemory⟩ := exists_header? h hoffset
  have hpadded : header.rawLength ≤ header.paddedLength := le_alignUp _
  -- both ends are cut at the end of the buffer
  have hstop : min (offset + header.rawLength) b.memory.bytes.length ≤
      min (offset + header.paddedLength) b.memory.bytes.length := by omega
  rw [clearPadding?, hmemory, Blob.clearPadding, hstorage]
  change b.memory.clear? _ _ = _
  rw [clear?_of_le hstop (Nat.min_le_right _ _), Bytes.patch_zeros_min, Option.some.injEq]
  -- clearing what is not there changes nothing, so the cut at the end of the buffer does not show
  have hwidth : offset + header.paddedLength - (offset + header.rawLength) =
      header.paddedLength - header.rawLength := Nat.add_sub_add_left _ _ _
  rw [hwidth, bytes_memory_eq h, Bytes.patch_zeros_append_zeros, ← Blob.content_patch]
  change _ = Buffer.mk _ _
  rw [Blob.buffer, Blob.content_patch, Bytes.length_patch, h.length_content, Blob.capacity_patch,
    Blob.config_patch]
  rfl

theorem setRootType?_memory (h : b.Sound) (t : FieldType) :
    b.memory.setRootType? t = some (b.withRootType t).memory := by
  rw [setRootType?, root_memory h]
  refine write?_memory h ?_
  rw [Nat.zero_add, Header.length_toBytes]
  exact h.toFormed.headerSize_le_size

/-- What lies behind the cut is cleared, so the memory is that of the shorter content. -/
theorem truncateTo?_memory (h : b.Sound) {n : Nat} (hlow : headerSize ≤ n) (hdvd : 4 ∣ n) :
    b.memory.truncateTo? n = some (b.truncateTo n).memory := by
  rw [truncateTo?, size_memory h]
  split
  · next hle => rw [Blob.truncateTo, if_pos hle]
  · next hlt =>
    have hlt := Nat.not_le.mp hlt
    have hsize := h.toFormed.size_eq
    have hcapacity := h.size_le_capacity
    have hsound := h.truncateTo hlow hdvd
    have hcontent := Blob.content_truncateTo h.toFormed hlow hlt
    -- what is kept has the width of the cut
    have hwidth : (b.root.toBytes ++ b.body.take (n - headerSize)).length = n := by
      rw [List.length_append, Header.length_toBytes, List.length_take]
      unfold headerSize at *; omega
    -- the memory falls into what is kept, what is cleared, and the zeros
    have hmemory : b.memory.bytes = (b.root.toBytes ++ b.body.take (n - headerSize)) ++
        (b.body.drop (n - headerSize) ++ .zeros (b.capacity - b.size)) := by
      rw [bytes_memory h, List.append_assoc, ← List.append_assoc (b.body.take _), List.take_append_drop]
    have hcleared : b.memory.bytes.patch n (.zeros (b.size - n)) =
        b.root.toBytes ++ (b.body.take (n - headerSize) ++ .zeros (b.capacity - n)) := by
      have hpatch := Bytes.patch_append_right (b.root.toBytes ++ b.body.take (n - headerSize))
        (b.body.drop (n - headerSize) ++ .zeros (b.capacity - b.size)) 0 (.zeros (b.size - n))
      have hdropped : (Bytes.zeros (b.size - n)).length = (b.body.drop (n - headerSize)).length := by
        rw [Bytes.length_zeros, List.length_drop]; omega
      have hzeros : b.size - n + (b.capacity - b.size) = b.capacity - n := by omega
      rw [Bytes.patch_append_of_length hdropped, Nat.add_zero, hwidth, Bytes.zeros_append, hzeros] at hpatch
      rw [hmemory, hpatch, List.append_assoc]
    dsimp only
    rw [Nat.max_eq_left hlow, clear?_of_le (Nat.le_of_lt hlt) (by rw [length_memory h]; exact hcapacity),
      hcleared]
    -- clearing leaves the shorter content with the old length in front, and the root gets the new one
    refine (setLength?_zero rfl n).trans (congrArg some (eq_memory hsound ?_ ?_))
    · rw [hcontent, Blob.size_truncateTo h.toFormed hlow hdvd hlt, Blob.capacity_truncateTo,
        List.append_assoc]
    · exact (Blob.config_truncateTo b n).symm

/-! ## Appending -/

theorem bytes_memory_reserve (h : b.Sound) (n : Nat) :
    (b.reserve n).memory.bytes = b.content ++ .zeros (b.capacityFor n - b.size) := by
  rw [bytes_memory_eq (h.reserve n)]
  rfl

theorem resize_memory (h : b.Sound) (n : Nat) :
    b.memory.resize n = (b.resize n).map Blob.memory := by
  have hcapacity := h.size_le_capacity
  have hgrown := (b.le_capacityFor n).1
  unfold resize Blob.resize
  dsimp only
  rw [length_memory h]
  change (if n = 0 ∨ b.config.limit < n then _ else _) = _
  split
  · rfl
  · split
    · next hle =>
      -- there is room already, so nothing grows
      have hreserve : b.reserve n = b :=
        Blob.ext (Blob.content_reserve b n) (if_pos hle) rfl
      rw [hreserve]
      rfl
    · next hlt =>
      -- the new bytes are zeros behind the zeros that were there
      have hnew : b.capacityFor n = alignToBlock n := if_neg hlt
      refine congrArg Except.ok (eq_memory (h.reserve n) ?_ rfl)
      change b.memory.bytes ++ .zeros (alignToBlock n - b.capacity) =
        b.content ++ .zeros (b.capacityFor n - b.size)
      rw [bytes_memory_eq h, List.append_assoc, Bytes.zeros_append, hnew]
      rw [hnew] at hgrown
      congr 2
      omega

/-- There is nothing to clear in new room. -/
theorem clear?_memory_reserve (h : b.Sound) {n : Nat} (hn : b.size ≤ n) :
    (b.reserve n).memory.clear? b.size n = some (b.reserve n).memory := by
  have hlength := length_memory (h.reserve n)
  have hgrown := (b.le_capacityFor n).2
  rw [clear?_of_le hn (by rw [hlength]; exact hgrown), Option.some.injEq]
  refine eq_memory (h.reserve n) ?_ rfl
  rw [bytes_memory_reserve h, Bytes.patch_zeros_append_zeros,
    Bytes.patch_of_length_le (Nat.le_of_eq h.length_content)]
  rfl

/-- Once there is room, a field of zeros needs no more than its header and a new length of the root. -/
theorem append_memory (h : b.Sound) (t : FieldType) {n : Nat} (hroom : b.stopOf n ≤ b.config.limit) :
    ((b.reserve (b.stopOf n)).memory.clear? b.size (b.stopOf n)).bind (fun m =>
      (m.write? b.size (Header.new t (statedLength n)).toBytes).bind fun m =>
        m.setLength? 0 (b.stopOf n)) = some (b.append ⟨t, .zeros n⟩).memory := by
  have hgrown := (b.le_capacityFor (b.stopOf n)).2
  have hstated : statedLength n ≤ alignUp (statedLength n) := le_alignUp _
  have hstop : b.stopOf n = b.size + alignUp (statedLength n) := rfl
  have hitem : (Item.toBytes ⟨t, .zeros n⟩).length = alignUp (statedLength n) := by
    rw [Item.toBytes_length, Bytes.length_zeros]
  have e := Blob.append_extends h.toFormed ⟨t, .zeros n⟩ (by rw [hitem]; exact hroom)
  -- the header takes the place of the first zeros
  have hzeros : b.capacityFor (b.stopOf n) - b.size =
      headerSize + (b.capacityFor (b.stopOf n) - b.size - headerSize) := by
    unfold statedLength at *; omega
  have hbytes : (b.reserve (b.stopOf n)).memory.bytes = b.content ++ (.zeros headerSize ++
      .zeros (b.capacityFor (b.stopOf n) - b.size - headerSize)) := by
    rw [bytes_memory_reserve h, Bytes.zeros_append, ← hzeros]
  have hwrite := write?_of_bytes hbytes (p := (Header.new t (statedLength n)).toBytes) (by simp [headerSize])
  rw [h.length_content] at hwrite
  -- the root stands in front of all of this
  have hroot : b.content ++ ((Header.new t (statedLength n)).toBytes ++
      .zeros (b.capacityFor (b.stopOf n) - b.size - headerSize)) = b.root.toBytes ++ (b.body ++
        ((Header.new t (statedLength n)).toBytes ++
          .zeros (b.capacityFor (b.stopOf n) - b.size - headerSize))) := by
    rw [← List.append_assoc b.root.toBytes, ← h.toFormed.content_eq]
  rw [clear?_memory_reserve h (b.size_le_stopOf n), Option.bind_some, hwrite, Option.bind_some]
  refine (setLength?_zero hroot _).trans (congrArg some (eq_memory (h.append e.fits) ?_ ?_))
  · -- zeros of the field, of its padding and behind the content run together
    have hrest : alignUp (statedLength n) - headerSize +
        (b.capacityFor (b.stopOf n) - (b.size + alignUp (statedLength n))) =
        b.capacityFor (b.stopOf n) - b.size - headerSize := by
      unfold statedLength at *; omega
    rw [e.content_eq, e.size_eq h.toFormed, hitem, Blob.capacity_append, Bytes.length_zeros,
      Item.toBytes_zeros, ← hrest, ← hstop]
    simp only [List.append_assoc, Bytes.zeros_append]
  · exact (Blob.config_append b _).symm

/-- **Appending a field of zeros in place is appending it to the blob.** -/
theorem newField_memory (h : b.Sound) (t : FieldType) (n : Nat) :
    b.memory.newField t n = some (match b.refusal? n with
      | some limit => .error limit
      | none => .ok (b.size, (b.append ⟨t, .zeros n⟩).memory)) := by
  -- a refusal for a length of zero does not happen
  have hpos : b.stopOf n ≠ 0 := by
    have := h.toFormed.headerSize_le_size
    unfold headerSize at this
    unfold Blob.stopOf; omega
  have hresize : b.memory.resize (b.size + alignUp (statedLength n)) =
      (b.resize (b.stopOf n)).map Blob.memory := resize_memory h (b.stopOf n)
  unfold newField Blob.refusal?
  dsimp only
  rw [size_memory h, hresize, Blob.resize]
  split
  · rfl
  · rcases Nat.lt_or_ge b.config.limit (b.stopOf n) with hexceeds | hroom
    · simp only [hexceeds, or_true, if_true, Except.map]
    · have hallowed : ¬(b.stopOf n = 0 ∨ b.config.limit < b.stopOf n) := by omega
      have happend := append_memory h t hroom
      simp only [Option.bind_eq_some_iff] at happend
      -- the three writes succeed one by one, as their chain does
      obtain ⟨cleared, hclear, headed, hwrite, hlength⟩ := happend
      rw [if_neg hallowed, if_neg (Nat.not_lt.mpr hroom)]
      change (do
        let m ← (b.reserve (b.stopOf n)).memory.clear? b.size (b.stopOf n)
        let m ← m.write? b.size (Header.new t (statedLength n)).toBytes
        return .ok (b.size, ← m.setLength? 0 (b.stopOf n)) : Written) = _
      simp [hclear, hwrite, hlength]

/-! ## Writes -/

/-- What a write to a blob gives, in memory. -/
def inMemory (w : Blob.Written) : Except SizeLimit (Nat × Buffer) :=
  w.map fun (offset, b) => (offset, b.memory)

/-- **A field is completed in memory as in the blob**, and its offset is not cut off. -/
theorem complete_newField (h : b.Sound) (t : FieldType) (n : Nat) {rest : Nat → Buffer → Option Buffer}
    {after : Blob} (hrest : b.stopOf n ≤ b.config.limit →
      rest b.size (b.append ⟨t, .zeros n⟩).memory = some after.memory) :
    complete (b.memory.newField t n) rest = some (match b.refusal? n with
      | some limit => .error limit
      | none => .ok (b.size, after.memory)) := by
  rw [newField_memory h, complete]
  cases hrefusal : b.refusal? n with
  | some limit => rfl
  | none =>
    -- sizes are far below 32 bits
    have hword : b.size % 2 ^ 32 = b.size := by
      have := b.size_le
      unfold maxLength at this
      exact Nat.mod_eq_of_lt (by omega)
    show (rest b.size (b.append ⟨t, .zeros n⟩).memory >>= fun m => some (Except.ok (b.size % 2 ^ 32, m))) =
      some (Except.ok (b.size, after.memory))
    rw [hrest (Blob.refusal?_eq_none_iff.mp hrefusal), hword]
    rfl

theorem inMemory_put (b : Blob) (item : Item) :
    inMemory (b.put item) = match b.refusal? item.payload.length with
      | some limit => .error limit
      | none => .ok (b.size, (b.append item).memory) := by
  rw [Blob.put]
  cases b.refusal? item.payload.length <;> rfl

/-- Filling the front of a field of zeros, in memory. -/
theorem fill?_append (h : b.Sound) (t : FieldType) {room width : Nat} {p : Bytes} (hp : p.length ≤ width)
    (hwidth : width ≤ room) (hroom : b.stopOf room ≤ b.config.limit) :
    (b.append ⟨t, .zeros room⟩).memory.fill? (b.size + headerSize) width p =
      some (b.append ⟨t, p ++ .zeros (room - p.length)⟩).memory := by
  have hitem := Item.le_toBytes_length ⟨t, .zeros room⟩
  have hfits : b.size + (Item.toBytes ⟨t, .zeros room⟩).length ≤ b.config.limit := by
    rw [Item.toBytes_length, Bytes.length_zeros]; exact hroom
  have hinside : b.size + headerSize + width ≤ (b.append ⟨t, .zeros room⟩).size := by
    rw [Blob.size_append h.toFormed hfits]
    rw [Bytes.length_zeros] at hitem; omega
  rw [fill?_memory (h.append hfits) hp hinside,
    Blob.patch_append_zeros h.toFormed t (Nat.le_trans hp hwidth) hroom]

/-- A field that was filled to its end. -/
theorem fill?_append_all (h : b.Sound) (item : Item)
    (hroom : b.stopOf item.payload.length ≤ b.config.limit) :
    (b.append ⟨item.type, .zeros item.payload.length⟩).memory.fill? (b.size + headerSize)
      item.payload.length item.payload = some (b.append item).memory := by
  have hfill := fill?_append h item.type (Nat.le_refl _) (Nat.le_refl _) hroom (p := item.payload)
  rw [Nat.sub_self] at hfill
  rw [hfill, show Bytes.zeros 0 = [] from rfl, List.append_nil]

theorem putFixed_memory (h : b.Sound) (item : Item)
    (hfixed : item.type.fixedSize? = some item.payload.length) :
    b.memory.putFixed item = some (inMemory (b.put item)) := by
  rw [inMemory_put, putFixed, hfixed]
  exact complete_newField h item.type item.payload.length (fill?_append_all h item)

theorem putString_memory (h : b.Sound) (text : String) :
    b.memory.putString text = some (inMemory (b.put (.ofText text))) := by
  have hlength : (Item.ofText text).payload.length = text.utf8ByteSize + 1 := by
    rw [Item.ofText, List.length_append, Bytes.length_ofText, List.length_singleton]
  rw [inMemory_put, hlength]
  refine complete_newField h .string (text.utf8ByteSize + 1) fun hroom => ?_
  -- the zero byte at the end is there already
  have hfill := fill?_append h .string (Nat.le_refl _) (Nat.le_add_right _ 1) hroom (p := .ofText text)
  rw [Nat.add_sub_cancel_left] at hfill
  exact hfill

theorem openContainer_memory (h : b.Sound) (bracket : Bracket) :
    b.memory.openContainer bracket = some (inMemory (b.put (.ofBracket bracket))) := by
  rw [inMemory_put]
  exact complete_newField h bracket.container 0 fun _ => rfl

theorem putScalar_memory (h : b.Sound) (t : FieldType) (payload : Bytes) :
    b.memory.putScalar t payload = some (inMemory (b.put ⟨t, payload⟩)) := by
  rw [inMemory_put]
  refine complete_newField h t payload.length fun hroom => ?_
  have hfits : b.size + (Item.toBytes ⟨t, payload⟩).length ≤ b.config.limit := by
    rw [Item.toBytes_length]; exact hroom
  have hinside : b.size + headerSize ≤ (b.append ⟨t, payload⟩).size := by
    have hitem := Item.le_toBytes_length ⟨t, payload⟩
    rw [Blob.size_append h.toFormed hfits]; omega
  have hfill : write? (b.append ⟨t, .zeros payload.length⟩).memory (b.size + headerSize) payload = _ :=
    fill?_append_all h ⟨t, payload⟩ hroom
  rw [hfill]
  change clearPadding? _ _ = _
  rw [clearPadding?_memory (h.append hfits) hinside, Blob.clearPadding_append h.toFormed hfits]

/-- The room for a copy holds what is copied. -/
theorem copiedLength_le (b : Blob) (f : Field) : b.size + Blob.copiedLength f ≤ b.stopOf f.header.dataLength := by
  have hcopied : Blob.copiedLength f ≤ f.paddedLength := Nat.min_le_right _ _
  have hpadded : f.paddedLength ≤ alignUp (statedLength f.header.dataLength) := by
    simp only [Field.paddedLength, Header.paddedLength, Header.dataLength, statedLength, alignUp, headerSize]
    omega
  exact Nat.add_le_add_left (Nat.le_trans hcopied hpadded) _

theorem size_appendRoom (h : b.Sound) {f : Field} (hroom : b.stopOf f.header.dataLength ≤ b.config.limit) :
    (b.appendRoom f).size = b.stopOf f.header.dataLength := by
  have hstop := Blob.stopOf_eq b ⟨f.type, .zeros f.header.dataLength⟩
  rw [Bytes.length_zeros] at hstop
  rw [Blob.appendRoom, Blob.size_append h.toFormed (by rw [← hstop]; exact hroom), hstop]

/-- Copying over new room, in memory. -/
theorem copyOver_memory (h : b.Sound) {f : Field} (hroom : b.stopOf f.header.dataLength ≤ b.config.limit)
    {copy : Bytes} (hcopy : copy.length ≤ Blob.copiedLength f) :
    (b.appendRoom f).memory.copyOver? b.size copy =
      some (((b.appendRoom f).patch b.size copy).clearPadding b.size).memory := by
  have hbehind := h.toFormed.headerSize_le_size
  have hsound := h.appendRoom (Blob.refusal?_eq_none hroom)
  have hsize := size_appendRoom h hroom
  have hcopied := copiedLength_le b f
  have hheader : b.size + headerSize ≤ b.stopOf f.header.dataLength :=
    Nat.add_le_add_left (Nat.le_trans (Nat.le_add_right _ _) (le_alignUp _)) _
  have hinside : b.size + headerSize ≤ ((b.appendRoom f).patch b.size copy).size := by
    rw [Blob.size_patch hsound.toFormed hbehind, hsize]
    exact hheader
  rw [copyOver?, write?_memory hsound (by omega)]
  exact clearPadding?_memory (hsound.patch hbehind copy) hinside

theorem putField_memory (h : b.Sound) (f : Field) :
    b.memory.putField f = some (inMemory (b.putField f)) := by
  have hcopy : (f.bytes.take (Blob.copiedLength f)).length ≤ Blob.copiedLength f := by
    rw [List.length_take]
    exact Nat.min_le_left _ _
  refine (complete_newField h f.type f.header.dataLength fun hroom => copyOver_memory h hroom hcopy).trans ?_
  rw [Blob.putField]
  cases b.refusal? f.header.dataLength <;> rfl

/-- What is copied lies inside the content, and new room does not change it. -/
theorem putSlice_memory (h : b.Sound) {source : Nat} {f : Field} (hf : b.field? source = some f) :
    b.memory.putSlice source f = some (match b.refusal? f.header.dataLength with
      | some limit => .error limit
      | none => .ok (b.size, (((b.appendRoom f).patch b.size ((b.appendRoom f).storage.slice source
          (source + Blob.copiedLength f))).clearPadding b.size).memory)) := by
  have hsource := Blob.field?_inside h.toFormed hf
  have hcopied : Blob.copiedLength f ≤ f.bytes.length := Nat.min_le_left _ _
  refine complete_newField h f.type f.header.dataLength fun hroom => ?_
  have hsound := h.appendRoom (Blob.refusal?_eq_none hroom)
  have hsize := size_appendRoom h hroom
  have hgrown := b.size_le_stopOf f.header.dataLength
  have hslice : (b.appendRoom f).storage.slice source (source + Blob.copiedLength f) =
      (b.appendRoom f).content.slice source (source + Blob.copiedLength f) := Storage.slice_eq _ _ _
  have hlength : ((b.appendRoom f).content.slice source (source + Blob.copiedLength f)).length ≤
      Blob.copiedLength f := by
    rw [Bytes.slice, List.length_drop, List.length_take]; omega
  have hread := read?_memory hsound (Nat.le_add_right source (Blob.copiedLength f)) (by omega)
  change ((b.appendRoom f).memory.read? _ _).bind _ = _
  rw [hread, Option.bind_some, hslice]
  exact copyOver_memory h hroom hlength

/-- **A copy inside a blob is a copy inside its memory**, whatever the source reads as. -/
theorem putCopy_memory (h : b.Sound) (source : Nat) :
    b.memory.putCopy source =
      some ((b.putCopy source).map fun (offset, b) => (offset, b.memory)) := by
  rw [putCopy, field?_memory h, Blob.putCopy]
  cases hf : b.field? source with
  | none => rfl
  | some f =>
    change (b.memory.putSlice source f).bind _ = _
    rw [putSlice_memory h hf]
    dsimp only
    cases b.refusal? f.header.dataLength <;> rfl

/-- **Closing writes inside the content**, wherever the offset points. -/
theorem close?_memory (h : b.Sound) (offset : Nat) :
    b.memory.close? offset = some (b.close offset).memory := by
  have hraw := b.rawLength_le_size
  rw [close?, root_memory h, Blob.close, Blob.canClose]
  by_cases hcan : offset ≠ 0 ∧ offset + headerSize ≤ b.root.rawLength
  · have hcannot : ¬(offset = 0 ∨ b.root.rawLength < offset + headerSize) := by omega
    have htrue : (offset != 0 && decide (offset + headerSize ≤ b.root.rawLength)) = true := by
      rw [Bool.and_eq_true]
      exact ⟨bne_iff_ne.mpr hcan.1, decide_eq_true hcan.2⟩
    rw [if_neg hcannot, if_pos htrue, setLength?_memory h (by omega)]
  · have hcannot : offset = 0 ∨ b.root.rawLength < offset + headerSize := by omega
    have hfalse : ¬(offset != 0 && decide (offset + headerSize ≤ b.root.rawLength)) = true := by
      rw [Bool.and_eq_true]
      rintro ⟨hne, hle⟩
      exact hcan ⟨bne_iff_ne.mp hne, of_decide_eq_true hle⟩
    rw [if_pos hcannot, if_neg hfalse]

/-! ## Empty and adopted buffers -/

/-- A buffer of zeros becomes the memory of a sound blob once it has the content, or all of the content
    but zeros at its end. -/
theorem write?_zeros (h : b.Sound) {p : Bytes} {n : Nat} (hcontent : b.content = p ++ .zeros n) :
    write? ⟨.zeros b.capacity, b.config⟩ 0 p = some b.memory := by
  have hlength := h.length_content
  have hcapacity := h.size_le_capacity
  rw [hcontent, List.length_append, Bytes.length_zeros] at hlength
  have hzeros : Bytes.zeros b.capacity =
      [] ++ (Bytes.zeros p.length ++ Bytes.zeros (n + (b.capacity - b.size))) := by
    rw [List.nil_append, Bytes.zeros_append]
    congr 1; omega
  have hwrite := write?_of_bytes (m := ⟨.zeros b.capacity, b.config⟩) hzeros (p := p)
    (Bytes.length_zeros _).symm
  refine hwrite.trans (congrArg some (eq_memory h ?_ rfl))
  rw [hcontent, List.nil_append, List.append_assoc, Bytes.zeros_append]

theorem empty?_eq {capacity : Nat} {config : Config} (hcapacity : blockSize ≤ capacity) :
    empty? capacity config = some (Blob.ofContent Blob.emptyContent capacity config).memory := by
  have hsound := Blob.sound_ofEmptyContent (b := .ofContent Blob.emptyContent capacity config) rfl hcapacity
  exact write?_zeros (n := 0) hsound (List.append_nil _).symm

theorem reset?_memory (h : b.Sound) : b.memory.reset? = some b.reset.memory := by
  rw [reset?, length_memory h]
  exact empty?_eq h.blockSize_le_capacity

theorem create?_eq (config : Config) : create? config = some ((Blob.create config).map Blob.memory) := by
  unfold create? Blob.create
  dsimp only
  split
  · rfl
  · rw [empty?_eq (Nat.le_max_right _ _)]
    rfl

/-- **Adopted bytes fit the buffer**, and the missing part of the padding is zero already. -/
theorem adopt?_eq (config : Config) (data : Bytes) :
    adopt? config data = some ((Blob.adopt config data).map Blob.memory) := by
  cases hroot : Header.ofBytes? data with
  | none =>
    rw [adopt?, Blob.adopt, hroot]
    rfl
  | some root =>
    -- both make the same checks in the same order
    have hadopt : Blob.adopt config data = Blob.adopt config data := rfl
    conv_rhs at hadopt => rw [Blob.adopt, hroot]
    rw [hadopt, adopt?, hroot]
    dsimp only at hadopt ⊢
    split_ifs at hadopt ⊢
    · rfl
    · rfl
    · rfl
    · rfl
    · rfl
    · -- of the content, the buffer takes what the data has; zeros are there for the rest
      have hsound := Blob.sound_adopt hadopt
      have htake : data.take (min root.paddedLength data.length) = data.take root.paddedLength := by
        rw [List.take_eq_take_iff, Nat.min_assoc, Nat.min_self]
      have hwrite : write? ⟨.zeros (alignToBlock (max (max data.length config.initialCapacity) blockSize)),
          config⟩ 0 (data.take root.paddedLength) = _ := write?_zeros hsound rfl
      rw [htake, hwrite]
      rfl

/-! ## Texts -/

theorem closeInnermost?_memory (h : b.Sound) (outer : Json.OpenFields) :
    b.memory.closeInnermost? outer = some (Json.closeInnermost b outer).memory := by
  match outer with
  | [] => rfl
  | none :: _ => rfl
  | some offset :: _ => exact close?_memory h offset

/-- The values that JSON texts have are of types that have only one size. -/
theorem putToken_memory (h : b.Sound) {token : Json.Token} {item : Item} (hitem : token.item? = some item) :
    b.memory.putToken token item = some (inMemory (b.put item)) := by
  cases token with
  | null => cases hitem; exact putFixed_memory h _ (Item.ofInt_payload_length 0).symm
  | bool v => cases hitem; exact putFixed_memory h _ rfl
  | number v => cases hitem; exact putFixed_memory h _ v.fixedSize?_item
  | string text => cases hitem; exact putString_memory h text
  | key text => cases hitem; exact putString_memory h text
  | opening bracket => cases hitem; exact openContainer_memory h bracket
  | closing => cases hitem

/-- **Writing tokens in place is writing them to the blob.** -/
theorem writeTokens?_memory (fillsRoot : Bool) (tokens : List (Json.Token × Json.Position))
    {outer : Json.OpenFields} {b : Blob} (h : b.Sound) (houter : outer.Behind) :
    writeTokens? fillsRoot outer b.memory tokens =
      some ((Json.writeTokens fillsRoot outer b tokens).blob.memory,
        (Json.writeTokens fillsRoot outer b tokens).fault?) := by
  induction tokens generalizing outer b with
  -- induction on the tokens, with the invariant of the blob carried along
  | nil => rfl
  | cons entry rest ih =>
    obtain ⟨token, refusal⟩ := entry
    rw [writeTokens?, Json.writeTokens]
    cases hitem : token.item? with
    | none =>
      -- a bracket is closed
      change (b.memory.closeInnermost? outer).bind _ = _
      rw [closeInnermost?_memory h]
      exact ih (Json.closeInnermost_sound h houter) houter.tail
    | some item =>
      dsimp only
      split
      -- the first bracket of the root only sets its type; any other token appends a field or is refused
      · next hroot =>
        have hopening : token.isOpening = true := (Bool.and_eq_true_iff.mp hroot).2
        have hcontainer := Json.Token.isContainer_item hitem hopening
        change (b.memory.setRootType? item.type).bind _ = _
        rw [setRootType?_memory h]
        exact ih (h.withRootType hcontainer) Json.OpenFields.behind_root
      · change (b.memory.putToken token item).bind _ = _
        rw [putToken_memory h hitem, inMemory_put]
        cases hroom : b.refusal? item.payload.length with
        | some limit => rfl
        | none =>
          have hfits : b.size + item.toBytes.length ≤ b.config.limit := by
            rw [← Blob.stopOf_eq]
            exact Blob.refusal?_eq_none_iff.mp hroom
          exact ih (h.append hfits) (houter.push h.toFormed.headerSize_le_size token)

/-- **Decoding in place is decoding into the blob**, also where what was written is removed again. -/
theorem decode?_memory (h : b.Sound) (fillsRoot : Bool) (text : String) :
    b.memory.decode? fillsRoot text = some ((Json.decode fillsRoot b text).blob.memory,
      (Json.decode fillsRoot b text).fault?) := by
  have hwritten := writeTokens?_memory fillsRoot (Json.Scan.ofText text).tokens h Json.OpenFields.behind_nil
  have hsound := Json.writeTokens_sound fillsRoot (Json.Scan.ofText text).tokens h Json.OpenFields.behind_nil
  -- the type that is restored is the same in both
  have htype : b.memory.root.type = b.head.type := by
    rw [root_memory h, h.toFormed.head_eq]
    rfl
  have htruncated := truncateTo?_memory hsound h.toFormed.headerSize_le_size b.dvd_size
  have hcut := hsound.truncateTo h.toFormed.headerSize_le_size b.dvd_size
  have hretagged := setRootType?_memory hcut b.head.type
  unfold decode? Json.decode
  dsimp only
  rw [hwritten]
  dsimp only [Option.bind_eq_bind, Option.bind_some]
  -- without a fault both keep what was written; with one, both cut it off and restore the type
  cases hfault : (Json.writeTokens fillsRoot [] b (Json.Scan.ofText text).tokens).fault?.or
      (Json.Scan.ofText text).fault? with
  | none =>
    dsimp only
    rw [(Option.or_eq_none_iff.mp hfault).1]
    rfl
  | some fault =>
    dsimp only
    rw [size_memory h, htype, htruncated, Option.bind_some, hretagged]
    rfl

theorem ofJson?_eq (config : Config) (text : String) :
    ofJson? config text = some ((Blob.ofJson config text).1.map Blob.memory) := by
  rw [ofJson?, create?_eq, Blob.ofJson]
  cases hcreate : Blob.create config with
  | error e => rfl
  | ok b =>
    change (b.memory.decode? true text).bind _ = _
    rw [decode?_memory (Blob.sound_create hcreate)]
    dsimp only
    cases (Json.decode true b text).fault? <;> rfl

/-! ## Programs -/

/-- **Every origin of a blob makes its memory.** -/
theorem make?_eq (origin : Origin) : make? origin = some (origin.make.1.map Blob.memory) := by
  cases origin with
  | new =>
    rw [make?, empty?_eq (Nat.le_refl _)]
    rfl
  | create config => exact create?_eq config
  | adopt config data =>
    rw [make?, adopt?_eq, Origin.make]
    cases Blob.adopt config data <;> rfl
  | json config text => exact ofJson?_eq config text

theorem ofWrite_memory (w : Blob.Written) (note : Nat → Journal) :
    b.memory.ofWrite (some (inMemory w)) =
      some ((Operation.ofWrite b w note).result, (Operation.ofWrite b w note).blob.memory) := by
  cases w <;> rfl

/-- **Every operation stays inside the buffer and leaves the memory of the blob that it gives.** -/
theorem run?_memory (h : b.Sound) (op : Operation Nat) :
    b.memory.run? op = some ((op.run b).result, (op.run b).blob.memory) := by
  -- one case for each operation: its result and its blob are those of the write or the change that it stands for
  cases op with
  | putScalar t payload =>
    rw [run?, putScalar_memory h]
    exact ofWrite_memory (b.putScalar t payload) _
  | putString text =>
    -- a text is written as bytes that end in zero
    rw [run?, putString_memory h, ← Blob.putString_eq]
    exact ofWrite_memory (b.putString text) _
  | putInt v =>
    -- a value of fixed size is the item with that type and payload
    rw [run?, putFixed_memory h _ (Item.ofInt_payload_length v).symm]
    exact ofWrite_memory (b.putInt v) _
  | putBool v =>
    rw [run?, putFixed_memory h _ rfl]
    exact ofWrite_memory (b.putBool v) _
  | putReal v =>
    rw [run?, putFixed_memory h _ (Item.fixedSize?_ofReal v)]
    exact ofWrite_memory (b.putReal v) _
  | putDouble v =>
    rw [run?, putFixed_memory h _ (Item.fixedSize?_ofDouble v)]
    exact ofWrite_memory (b.putDouble v) _
  | putSingle v =>
    rw [run?, putFixed_memory h _ (Item.fixedSize?_ofSingle v)]
    exact ofWrite_memory (b.putSingle v) _
  | putField f =>
    rw [run?, putField_memory h]
    exact ofWrite_memory (b.putField f) _
  | putCopy source =>
    -- where there is nothing to copy, both refuse
    rw [run?, putCopy_memory h, Operation.run]
    cases b.putCopy source <;> rfl
  | openContainer bracket =>
    rw [run?, openContainer_memory h]
    exact ofWrite_memory (b.openContainer bracket) _
  | close container =>
    rw [run?, close?_memory h]
    rfl
  | putJson text =>
    -- the result tells whether a fault was found
    rw [run?, decode?_memory h, Operation.run, Blob.putJson]
    cases (Json.decode false b text).fault? <;> rfl
  | resize n =>
    -- a refusal leaves the buffer alone
    rw [run?, resize_memory h, Operation.run]
    cases b.resize n <;> rfl
  | reset =>
    rw [run?, reset?_memory h]
    rfl

end Buffer

end FieldTree
