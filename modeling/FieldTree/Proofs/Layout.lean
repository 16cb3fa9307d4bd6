import FieldTree.Blob.Writing
import Mathlib.Tactic.ByContra

/-!
# Layout of Blobs

The content of a blob is the root's header and a body behind it. This module says what every primitive
change does to these two parts, so that no later proof has to look at single bytes of the root.

## Architecture

- `Blob.Formed`: the root is a container and its length covers the content.
- `Blob.Extends`: one blob is another one with more bytes at the end.
- `Blob.append_extends`: appending an item extends a blob.
- `Blob.content_close`: closing rewrites the length of one header and nothing else.
- `Blob.Extends.close`: what was opened and filled is an extension again once it is closed.
-/

namespace FieldTree

/-- The ceiling in force fits the root's header. -/
theorem Config.limit_le (c : Config) : c.limit ≤ maxLength := Nat.min_le_right _ _

namespace Blob

variable {b b' b'' : Blob}

/-! ## Root and body -/

/-- What follows the root's header. -/
def body (b : Blob) : Bytes := b.content.drop headerSize

theorem root_of_content {h : Header} {rest : Bytes} (e : b.content = h.toBytes ++ rest) :
    b.root = h := by
  rw [root_eq, e, Header.ofBytes?_toBytes, Option.getD_some]

theorem body_of_content {h : Header} {rest : Bytes} (e : b.content = h.toBytes ++ rest) :
    b.body = rest := by
  rw [body, e]
  exact List.drop_left' h.length_toBytes

/-- The root is a container, and its length covers exactly the content. -/
structure Formed (b : Blob) : Prop where
  isContainer_root : b.root.type.isContainer = true
  headerSize_le_root : headerSize ≤ b.root.rawLength
  length_content : b.content.length = b.size

theorem dvd_size (b : Blob) : 4 ∣ b.size := dvd_alignUp _

theorem rawLength_le_size (b : Blob) : b.root.rawLength ≤ b.size := le_alignUp _

/-- The padding can bring the size one above the largest length. -/
theorem size_le (b : Blob) : b.size ≤ maxLength + 1 := by
  have h : b.root.rawLength < 2 ^ 24 := b.root.length.isLt
  simp only [size, Header.paddedLength, alignUp, maxLength]
  omega

namespace Formed

theorem headerSize_le_size (h : b.Formed) : headerSize ≤ b.size :=
  Nat.le_trans h.headerSize_le_root b.rawLength_le_size

theorem content_eq (h : b.Formed) : b.content = b.root.toBytes ++ b.body := by
  -- there is room for a header, so the content starts with one
  have hlen : headerSize ≤ b.content.length := h.length_content ▸ h.headerSize_le_size
  obtain ⟨r, hr⟩ := Header.exists_ofBytes? hlen
  have hroot : b.root = r := by rw [root_eq, hr, Option.getD_some]
  rw [hroot]
  exact Header.eq_toBytes_append hr

/-- Around a header inside it, the content falls into what stands in front, the header, and the rest. -/
theorem exists_split (h : b.Formed) {offset : Nat} (hoffset : offset + headerSize ≤ b.size) :
    ∃ (front : Bytes) (header : Header) (rest : Bytes),
      b.content = front ++ (header.toBytes ++ rest) ∧ front.length = offset := by
  have hcontent := h.length_content
  have hroom : headerSize ≤ (b.content.drop offset).length := by
    rw [List.length_drop]
    omega
  obtain ⟨header, hheader⟩ := Header.exists_ofBytes? hroom
  refine ⟨b.content.take offset, header, (b.content.drop offset).drop headerSize, ?_, ?_⟩
  · rw [← Header.eq_toBytes_append hheader, List.take_append_drop]
  · rw [List.length_take]
    omega

theorem size_eq (h : b.Formed) : b.size = headerSize + b.body.length := by
  rw [← h.length_content, h.content_eq, List.length_append, Header.length_toBytes, headerSize]

theorem head_eq (h : b.Formed) : b.head = ⟨b.root, b.body⟩ := by
  -- the body is as long as the root states, so nothing is cut off
  have hroom : b.body.length ≤ Field.bodyRoom b.root := by
    have hsize := h.size_eq
    have : b.size = b.root.paddedLength := rfl
    unfold Field.bodyRoom; omega
  rw [head, h.content_eq, Field.ofBytes?_header, List.take_of_length_le hroom]
  rfl

end Formed

/-- A blob is formed if its content starts with a container's header whose length covers all of it. -/
theorem formed_of_content {r : Header} {rest : Bytes} (e : b.content = r.toBytes ++ rest)
    (hcontainer : r.type.isContainer = true) (hlow : headerSize ≤ r.rawLength)
    (hlength : r.paddedLength = headerSize + rest.length) : b.Formed where
  isContainer_root := by rw [root_of_content e]; exact hcontainer
  headerSize_le_root := by rw [root_of_content e]; exact hlow
  length_content := by
    rw [size, root_of_content e, hlength, e, List.length_append, Header.length_toBytes, headerSize]

/-! ## Changes behind the root -/

theorem content_patch_behind (h : b.Formed) (i : Nat) (p : Bytes) :
    (b.patch (headerSize + i) p).content = b.root.toBytes ++ b.body.patch i p := by
  have hroot : headerSize = b.root.toBytes.length := by rw [Header.length_toBytes, headerSize]
  rw [content_patch, h.content_eq, hroot]
  exact Bytes.patch_append_right _ _ _ _

/-- **The root survives every patch behind its header**, and so does the form of the blob. -/
theorem formed_patch (h : b.Formed) {offset : Nat} (hoffset : headerSize ≤ offset) (p : Bytes) :
    (b.patch offset p).Formed ∧ (b.patch offset p).root = b.root := by
  obtain ⟨i, rfl⟩ := Nat.exists_eq_add_of_le hoffset
  have e := content_patch_behind h i p
  refine ⟨formed_of_content e h.isContainer_root h.headerSize_le_root ?_, root_of_content e⟩
  -- only the bytes behind the root changed, and not their number
  rw [Bytes.length_patch]
  exact h.size_eq

theorem size_patch (h : b.Formed) {offset : Nat} (hoffset : headerSize ≤ offset) (p : Bytes) :
    (b.patch offset p).size = b.size := by
  rw [size, (formed_patch h hoffset p).2, size]

theorem field?_inside (h : b.Formed) {offset : Nat} {f : Field} (hf : b.field? offset = some f) :
    offset + f.bytes.length ≤ b.size := by
  unfold field? at hf
  split at hf
  · cases hf
  · have hle := Field.length_bytes_le hf
    rw [List.length_drop, h.length_content] at hle
    omega

/-! ## Changes of the root -/

/-- Another length takes the place of the one in a header, wherever that stands. -/
theorem content_patchLength_at {front rest : Bytes} {h : Header}
    (e : b.content = front ++ (h.toBytes ++ rest)) (n : Nat) :
    (b.patchLength front.length n).content = front ++ ((h.withLength n).toBytes ++ rest) := by
  have hpatch := Bytes.patch_append_right front (h.toBytes ++ rest) 0 (h.withLength n).toBytes
  rw [Nat.add_zero, Bytes.patch_append_of_length (by simp)] at hpatch
  rw [content_patchLength, e, List.drop_left, Header.ofBytes?_toBytes]
  exact hpatch

theorem content_patchLength_root {r : Header} {rest : Bytes} (e : b.content = r.toBytes ++ rest)
    (n : Nat) : (b.patchLength 0 n).content = (r.withLength n).toBytes ++ rest := by
  have hfront : b.content = [] ++ (r.toBytes ++ rest) := e
  exact content_patchLength_at hfront n

theorem content_withRootType (h : b.Formed) (t : FieldType) :
    (b.withRootType t).content = (b.root.withType t).toBytes ++ b.body := by
  rw [withRootType, content_patch, h.content_eq]
  exact Bytes.patch_append_of_length (by simp) b.body

/-- A root with the type of another container is still a root. -/
theorem formed_withRootType (h : b.Formed) {t : FieldType} (ht : t.isContainer = true) :
    (b.withRootType t).Formed := by
  refine formed_of_content (content_withRootType h t) (by simpa using ht) ?_ ?_
  · rw [Header.rawLength_withType]; exact h.headerSize_le_root
  · exact h.size_eq

/-- Cutting a blob back leaves the front of its body behind a root of the new size. -/
theorem content_truncateTo (h : b.Formed) {n : Nat} (hlow : headerSize ≤ n) (hlt : n < b.size) :
    (b.truncateTo n).content = (b.root.withLength n).toBytes ++ b.body.take (n - headerSize) := by
  have hroot : b.root.toBytes.length ≤ n := by rw [Header.length_toBytes]; exact hlow
  rw [truncateTo, if_neg (Nat.not_le.mpr hlt), Nat.max_eq_left hlow]
  apply content_patchLength_root
  rw [content, Storage.toList_take]
  change b.content.take n = _
  rw [h.content_eq, List.take_append, List.take_of_length_le hroot, Header.length_toBytes]
  rfl

/-! ## Appending -/

/-- `b'` is `b` with `more` at its end and a root that covers it. -/
structure Extends (b b' : Blob) (more : Bytes) : Prop where
  root_eq : b'.root = b.root.withLength (b.size + more.length)
  body_eq : b'.body = b.body ++ more
  config_eq : b'.config = b.config
  fits : b.size + more.length ≤ b.config.limit
  formed : b'.Formed

namespace Extends

variable {x y : Bytes}

theorem rawLength_root (e : b.Extends b' x) (h : b.Formed) :
    b'.root.rawLength = b.size + x.length := by
  have hlow := h.headerSize_le_size
  -- the new length is one that a header can state
  have hfits := Nat.le_trans e.fits b.config.limit_le
  rw [e.root_eq]
  exact Header.rawLength_withLength _ (by omega) hfits

theorem size_eq (e : b.Extends b' x) (h : b.Formed) : b'.size = b.size + x.length := by
  rw [e.formed.size_eq, e.body_eq, List.length_append, h.size_eq, Nat.add_assoc]

theorem content_eq (e : b.Extends b' x) :
    b'.content = (b.root.withLength (b.size + x.length)).toBytes ++ (b.body ++ x) := by
  rw [e.formed.content_eq, e.root_eq, e.body_eq]

theorem aligned (e : b.Extends b' x) (h : b.Formed) : b'.root.rawLength = b'.size := by
  rw [e.rawLength_root h, e.size_eq h]

theorem trans (e : b.Extends b' x) (e' : b'.Extends b'' y) (h : b.Formed) :
    b.Extends b'' (x ++ y) where
  root_eq := by
    rw [e'.root_eq, e.root_eq, Header.withLength_withLength, e.size_eq h, List.length_append,
      Nat.add_assoc]
  body_eq := by rw [e'.body_eq, e.body_eq, List.append_assoc]
  config_eq := e'.config_eq.trans e.config_eq
  fits := by
    have := e'.fits
    rw [e.size_eq h, e.config_eq] at this
    rw [List.length_append]; omega
  formed := e'.formed

/-- What a blob was extended by starts where the content ended. -/
theorem drop_content (e : b.Extends b' x) (h : b.Formed) : b'.content.drop b.size = x := by
  rw [e.content_eq, ← List.append_assoc]
  apply List.drop_left'
  rw [List.length_append, Header.length_toBytes, h.size_eq, headerSize]

end Extends

/-- One blob is another one with a field at its end. Of what the other blob held only the root's length differs,
    which is the new size. -/
structure Gained (b b' : Blob) (f : Field) : Prop where
  content : b'.content = (b.root.withLength b'.size).toBytes ++ b.content.drop headerSize ++ f.bytes
  root : b'.root.rawLength = b'.size
  size : b'.size = b.size + f.bytes.length
  found : b'.field? b.size = some f

/-- **A blob that was extended by a field has gained it.** -/
theorem Extends.gains {f : Field} (e : b.Extends b' f.bytes) (h : b.Formed)
    (hbody : f.body.length ≤ Field.bodyRoom f.header) : b.Gained b' f where
  content := by
    rw [e.content_eq, e.size_eq h, List.append_assoc]
    rfl
  root := e.aligned h
  size := e.size_eq h
  found := by
    have hinside : ¬b'.size < b.size + headerSize := by
      rw [e.size_eq h, Field.bytes, List.length_append, Header.length_toBytes]
      unfold headerSize
      omega
    rw [field?, if_neg hinside, e.drop_content h, Field.bytes, Field.ofBytes?_header, List.take_of_length_le hbody]

/-- An aligned blob is itself with nothing at the end. -/
theorem Formed.extends_self (h : b.Formed) (aligned : b.root.rawLength = b.size)
    (hfits : b.size ≤ b.config.limit) : b.Extends b [] where
  root_eq := by
    rw [List.length_nil, Nat.add_zero, ← aligned]
    exact (Header.withLength_rawLength h.headerSize_le_root).symm
  body_eq := (List.append_nil _).symm
  config_eq := rfl
  fits := hfits
  formed := h

theorem stopOf_eq (b : Blob) (item : Item) :
    b.stopOf item.payload.length = b.size + item.toBytes.length := by
  rw [stopOf, Item.toBytes_length]

theorem size_le_stopOf (b : Blob) (n : Nat) : b.size ≤ b.stopOf n := Nat.le_add_right _ _

/-- **Appending an item extends the blob by the bytes of the item.** -/
theorem append_extends (h : b.Formed) (item : Item)
    (hfits : b.size + item.toBytes.length ≤ b.config.limit) :
    b.Extends (b.append item) item.toBytes := by
  have hlow := h.headerSize_le_size
  have hhigh := Nat.le_trans hfits b.config.limit_le
  have e : (b.append item).content =
      (b.root.withLength (b.size + item.toBytes.length)).toBytes ++ (b.body ++ item.toBytes) := by
    rw [append, stopOf_eq]
    refine content_patchLength_root ?_ _
    rw [content, Storage.toList_append, ← List.append_assoc, ← h.content_eq]
    rfl
  have hraw := Header.rawLength_withLength b.root (n := b.size + item.toBytes.length) (by omega) hhigh
  -- both are padded, so the root's length needs no padding
  have hdvd : 4 ∣ b.size + item.toBytes.length := by
    rw [Item.toBytes_length]
    exact Nat.dvd_add b.dvd_size (dvd_alignUp _)
  exact {
    root_eq := root_of_content e
    body_eq := body_of_content e
    config_eq := config_patchLength _ _ _
    fits := hfits
    formed := by
      refine formed_of_content e h.isContainer_root ?_ ?_
      · rw [hraw]; omega
      · rw [Header.paddedLength, hraw, alignUp_of_dvd hdvd, h.size_eq, List.length_append,
          Nat.add_assoc] }

theorem size_append (h : b.Formed) {item : Item}
    (hfits : b.size + item.toBytes.length ≤ b.config.limit) :
    (b.append item).size = b.size + item.toBytes.length :=
  (append_extends h item hfits).size_eq h

@[simp] theorem capacity_append (b : Blob) (item : Item) :
    (b.append item).capacity = b.capacityFor (b.stopOf item.payload.length) :=
  capacity_patchLength _ _ _

@[simp] theorem config_append (b : Blob) (item : Item) : (b.append item).config = b.config :=
  config_patchLength _ _ _

/-- Filling the front of a field of zeros is the same as appending the filled field. -/
theorem patch_append_zeros (h : b.Formed) (t : FieldType) {room : Nat} {p : Bytes} (hp : p.length ≤ room)
    (hroom : b.stopOf room ≤ b.config.limit) :
    (b.append ⟨t, .zeros room⟩).patch (b.size + headerSize) p =
      b.append ⟨t, p ++ .zeros (room - p.length)⟩ := by
  have hlength : (p ++ Bytes.zeros (room - p.length)).length = room := by
    rw [List.length_append, Bytes.length_zeros]; omega
  -- both fields take up the same number of bytes
  have hbytes : ∀ payload : Bytes, payload.length = room →
      (Item.toBytes ⟨t, payload⟩).length = alignUp (statedLength room) := by
    rintro payload rfl
    exact Item.toBytes_length _
  have hzeros := hbytes _ (Bytes.length_zeros room)
  have hfilled := hbytes _ hlength
  have e := append_extends h ⟨t, .zeros room⟩ (by rw [hzeros]; exact hroom)
  have e' := append_extends h ⟨t, p ++ .zeros (room - p.length)⟩ (by rw [hfilled]; exact hroom)
  have hoffset : b.size + headerSize = headerSize + (b.body.length + headerSize) := by
    rw [h.size_eq, Nat.add_assoc]
  refine ext ?_ ?_ ?_
  · rw [hoffset, content_patch_behind e.formed, e.root_eq, e.body_eq, Bytes.patch_append_right,
      Item.patch_toBytes_zeros t hp, e'.content_eq, hzeros, hfilled]
  · rw [capacity_patch, capacity_append, capacity_append, hlength, Bytes.length_zeros]
  · rw [config_patch, config_append, config_append]

/-- The padding of a new field is clear. -/
theorem clearPadding_append (h : b.Formed) {item : Item}
    (hfits : b.size + item.toBytes.length ≤ b.config.limit) :
    (b.append item).clearPadding b.size = b.append item := by
  have e := append_extends h item hfits
  have hstated : statedLength item.payload.length ≤ item.toBytes.length := item.le_toBytes_length
  have hraw : (Header.new item.type (statedLength item.payload.length)).rawLength =
      statedLength item.payload.length := by
    have := b.config.limit_le
    refine Header.rawLength_new item.type (Nat.le_add_right _ _) ?_
    omega
  -- the content up to the new field, its header and its payload
  obtain ⟨front, hfront, hlength⟩ : ∃ front : Bytes, (b.append item).content = front ++ item.toBytes ∧
      front.length = b.size := by
    refine ⟨(b.root.withLength (b.size + item.toBytes.length)).toBytes ++ b.body, ?_, ?_⟩
    · rw [e.content_eq, List.append_assoc]
    · rw [List.length_append, Header.length_toBytes, h.size_eq, headerSize]
  -- where the old content ended stands the header of the item
  have hheader : (b.append item).storage.header? b.size =
      some (.new item.type (statedLength item.payload.length)) := by
    rw [Storage.header?_eq]
    change Header.ofBytes? ((b.append item).content.drop b.size) = _
    rw [hfront, ← hlength, List.drop_left, Item.toBytes, List.append_assoc, Header.ofBytes?_toBytes]
  rw [clearPadding, hheader]
  refine ext ?_ rfl rfl
  -- what is cleared begins behind the payload, where the zeros of the padding are
  have hdone : (front ++ (Header.new item.type (statedLength item.payload.length)).toBytes ++
      item.payload).length = b.size + statedLength item.payload.length := by
    rw [List.length_append, List.length_append, Header.length_toBytes, hlength, Nat.add_assoc,
      statedLength, headerSize]
  dsimp only
  rw [content_patch, Header.paddedLength, hraw, hfront, Item.toBytes]
  simp only [← List.append_assoc]
  rw [Bytes.patch_zeros_append_zeros, Bytes.patch_of_length_le (Nat.le_of_eq hdone)]

/-! ## Room -/

/-- The limit is the only reason to refuse an item. -/
theorem refusal?_eq_none {n : Nat} (h : b.stopOf n ≤ b.config.limit) : b.refusal? n = none := by
  have hlimit := b.config.limit_le
  have hstated : statedLength n ≤ b.stopOf n :=
    Nat.le_trans (le_alignUp _) (Nat.le_add_left _ _)
  rw [refusal?, if_neg (by omega), if_neg (by omega)]

theorem exists_refusal? {n : Nat} (h : b.config.limit < b.stopOf n) :
    ∃ limit, b.refusal? n = some limit := by
  unfold refusal?
  split <;> exact ⟨_, rfl⟩

theorem refusal?_eq_none_iff {n : Nat} : b.refusal? n = none ↔ b.stopOf n ≤ b.config.limit := by
  refine ⟨fun hnone => ?_, refusal?_eq_none⟩
  by_contra hexceeds
  obtain ⟨limit, hl⟩ := exists_refusal? (Nat.not_le.mp hexceeds)
  rw [hl] at hnone
  cases hnone

theorem put_of_fits {item : Item} (h : b.size + item.toBytes.length ≤ b.config.limit) :
    b.put item = .ok (b.size, b.append item) := by
  rw [put, refusal?_eq_none (by rw [stopOf_eq]; exact h)]

theorem put_of_exceeds {item : Item} (h : b.config.limit < b.size + item.toBytes.length) :
    ∃ limit, b.put item = .error limit := by
  obtain ⟨limit, hl⟩ := exists_refusal? (by rw [stopOf_eq]; exact h)
  exact ⟨limit, by rw [put, hl]⟩

theorem put_eq_ok {item : Item} {offset : Nat} (h : b.put item = .ok (offset, b')) :
    offset = b.size ∧ b' = b.append item ∧ b.size + item.toBytes.length ≤ b.config.limit := by
  rcases Nat.lt_or_ge b.config.limit (b.size + item.toBytes.length) with hexceeds | hfits
  · obtain ⟨limit, hl⟩ := put_of_exceeds hexceeds
    rw [hl] at h
    cases h
  · rw [put_of_fits hfits] at h
    cases h
    exact ⟨rfl, rfl, hfits⟩

/-! ## Closing -/

@[simp] theorem config_close (b : Blob) (offset : Nat) : (b.close offset).config = b.config := by
  unfold close
  split
  · exact config_patchLength _ _ _
  · rfl

theorem canClose_of_le {offset : Nat} (hoffset : headerSize ≤ offset)
    (hroom : offset + headerSize ≤ b.root.rawLength) : b.canClose offset = true := by
  have hpos : offset ≠ 0 := by
    rintro rfl
    cases hoffset
  rw [canClose, bne_iff_ne.mpr hpos, decide_eq_true hroom]
  rfl

/-- Closing the container whose header stands at `front` makes it cover all that follows. -/
theorem content_close {h : Header} {front inside : Bytes} (hb : b.Formed)
    (aligned : b.root.rawLength = b.size) (hbody : b.body = front ++ (h.toBytes ++ inside)) :
    (b.close (headerSize + front.length)).content =
      b.root.toBytes ++ (front ++ ((h.withLength (headerSize + inside.length)).toBytes ++ inside)) := by
  have hsize : b.size = headerSize + (front.length + (headerSize + inside.length)) := by
    rw [hb.size_eq, hbody]; simp [headerSize]
  have hlength : b.root.rawLength - (headerSize + front.length) = headerSize + inside.length := by
    omega
  -- the header to be rewritten stands behind the root's header and `front`
  have hcontent : b.content = (b.root.toBytes ++ front) ++ (h.toBytes ++ inside) := by
    rw [hb.content_eq, hbody, List.append_assoc]
  have hoffset : (b.root.toBytes ++ front).length = headerSize + front.length := by
    rw [List.length_append, Header.length_toBytes, headerSize]
  have hpatched := content_patchLength_at hcontent (headerSize + inside.length)
  rw [hoffset, List.append_assoc] at hpatched
  rw [close, if_pos (canClose_of_le (Nat.le_add_right _ _) (by omega)), hlength]
  exact hpatched

/-- Closing the container that an extension starts with makes its header cover the extension. -/
theorem Extends.close {h : Header} {inside : Bytes} (hb : b.Formed)
    (e : b.Extends b' (h.toBytes ++ inside)) :
    b.Extends (b'.close b.size) ((h.withLength (headerSize + inside.length)).toBytes ++ inside) := by
  -- a header takes up the same room with another length
  have hlength : ((h.withLength (headerSize + inside.length)).toBytes ++ inside).length =
      (h.toBytes ++ inside).length := by
    rw [List.length_append, List.length_append, Header.length_toBytes, Header.length_toBytes]
  have hcontent : (b'.close b.size).content = b'.root.toBytes ++
      (b.body ++ ((h.withLength (headerSize + inside.length)).toBytes ++ inside)) := by
    rw [hb.size_eq]
    exact content_close e.formed (e.aligned hb) e.body_eq
  exact {
    root_eq := by rw [root_of_content hcontent, hlength, e.root_eq]
    body_eq := body_of_content hcontent
    config_eq := (config_close _ _).trans e.config_eq
    fits := by rw [hlength]; exact e.fits
    formed := by
      refine formed_of_content hcontent e.formed.isContainer_root e.formed.headerSize_le_root ?_
      rw [List.length_append, hlength, ← List.length_append, ← e.body_eq]
      exact e.formed.size_eq }

end Blob

end FieldTree
