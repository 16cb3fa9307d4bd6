import FieldTree.Blob.Operation
import FieldTree.Proofs.Layout
import Mathlib.Tactic.Conv
import Mathlib.Tactic.SplitIfs

/-!
# The Invariant of Blobs

A blob is sound if it is formed and its buffer has room for the content and for at least one block. Every
way to make a blob makes a sound one, and every operation keeps it sound, provided that the places that it
is given lie behind the root's header.

## Architecture

- `Blob.Sound`: the invariant.
- One lemma for each primitive change, then one for each write.
- `Json.writeTokens_sound`, `Json.decode_sound`: texts, also those that fail half way.
- `Origin.make_sound`, `Operation.run_sound`: all of them together.
-/

namespace FieldTree

namespace Blob

variable {b b' : Blob}

/-- The invariant of blobs. -/
structure Sound (b : Blob) : Prop extends Formed b where
  size_le_capacity : b.size ≤ b.capacity
  blockSize_le_capacity : blockSize ≤ b.capacity

/-! ## Primitive changes -/

/-- A formed blob of the same size in the same buffer is sound. -/
theorem Sound.of_formed (h : b.Sound) (formed : b'.Formed) (size : b'.size = b.size)
    (capacity : b'.capacity = b.capacity) : b'.Sound where
  toFormed := formed
  size_le_capacity := by rw [size, capacity]; exact h.size_le_capacity
  blockSize_le_capacity := by rw [capacity]; exact h.blockSize_le_capacity

theorem Sound.patch (h : b.Sound) {offset : Nat} (hoffset : headerSize ≤ offset) (p : Bytes) :
    (b.patch offset p).Sound := by
  obtain ⟨formed, root⟩ := formed_patch h.toFormed hoffset p
  exact h.of_formed formed (by rw [size, root, size]) (capacity_patch _ _ _)

theorem Sound.patchLength (h : b.Sound) {offset : Nat} (hoffset : headerSize ≤ offset) (n : Nat) :
    (b.patchLength offset n).Sound ∧ (b.patchLength offset n).root = b.root := by
  unfold Blob.patchLength
  split
  · exact ⟨h, rfl⟩
  · exact ⟨h.patch hoffset _, (formed_patch h.toFormed hoffset _).2⟩

theorem Sound.clearPadding (h : b.Sound) {offset : Nat} (hoffset : headerSize ≤ offset) :
    (b.clearPadding offset).Sound ∧ (b.clearPadding offset).root = b.root := by
  unfold Blob.clearPadding
  split
  · exact ⟨h, rfl⟩
  · next header _ =>
    have hle : headerSize ≤ offset + header.rawLength :=
      Nat.le_trans hoffset (Nat.le_add_right _ _)
    exact ⟨h.patch hle _, (formed_patch h.toFormed hle _).2⟩

theorem Sound.close (h : b.Sound) {offset : Nat} (hoffset : headerSize ≤ offset) :
    (b.close offset).Sound ∧ (b.close offset).root = b.root := by
  unfold Blob.close
  split
  · exact h.patchLength hoffset _
  · exact ⟨h, rfl⟩

theorem Sound.withRootType (h : b.Sound) {t : FieldType} (ht : t.isContainer = true) :
    (b.withRootType t).Sound := by
  have formed := formed_withRootType h.toFormed ht
  have root := root_of_content (content_withRootType h.toFormed t)
  exact h.of_formed formed (by rw [size, root]; rfl) (capacity_withRootType _ _)

theorem le_capacityFor (b : Blob) (n : Nat) : b.capacity ≤ b.capacityFor n ∧ n ≤ b.capacityFor n := by
  unfold capacityFor
  split
  · next hle => exact ⟨Nat.le_refl _, hle⟩
  · next hlt =>
    have := le_alignToBlock n
    exact ⟨by omega, this⟩

theorem Sound.reserve (h : b.Sound) (n : Nat) : (b.reserve n).Sound where
  toFormed := ⟨h.isContainer_root, h.headerSize_le_root, h.length_content⟩
  size_le_capacity := Nat.le_trans h.size_le_capacity (b.le_capacityFor n).1
  blockSize_le_capacity := Nat.le_trans h.blockSize_le_capacity (b.le_capacityFor n).1

theorem Sound.append (h : b.Sound) {item : Item}
    (hfits : b.size + item.toBytes.length ≤ b.config.limit) : (b.append item).Sound := by
  have e := append_extends h.toFormed item hfits
  obtain ⟨hgrown, hroom⟩ := b.le_capacityFor (b.stopOf item.payload.length)
  exact {
    toFormed := e.formed
    size_le_capacity := by rw [capacity_append, e.size_eq h.toFormed, ← stopOf_eq]; exact hroom
    blockSize_le_capacity := by
      rw [capacity_append]; exact Nat.le_trans h.blockSize_le_capacity hgrown }

/-- An empty blob is sound in any buffer of at least a block. -/
theorem sound_ofEmptyContent (h : b.content = emptyContent) (hcapacity : blockSize ≤ b.capacity) :
    b.Sound := by
  -- an array's header, and nothing behind it
  have e : b.content = (Header.new .array headerSize).toBytes ++ [] := h
  have formed := formed_of_content e rfl (Nat.le_refl _) rfl
  have hsize : b.size = headerSize := by rw [size, root_of_content e]; rfl
  have hblock : headerSize ≤ blockSize := by decide
  exact ⟨formed, by rw [hsize]; exact Nat.le_trans hblock hcapacity, hcapacity⟩

theorem Sound.reset (h : b.Sound) : b.reset.Sound :=
  sound_ofEmptyContent (content_reset b) h.blockSize_le_capacity

@[simp] theorem capacity_truncateTo (b : Blob) (n : Nat) : (b.truncateTo n).capacity = b.capacity := by
  unfold Blob.truncateTo
  split
  · rfl
  · exact capacity_patchLength _ _ _

@[simp] theorem config_truncateTo (b : Blob) (n : Nat) : (b.truncateTo n).config = b.config := by
  unfold Blob.truncateTo
  split
  · rfl
  · exact config_patchLength _ _ _

theorem rawLength_truncateTo (h : b.Formed) {n : Nat} (hlow : headerSize ≤ n) (hlt : n < b.size) :
    (b.truncateTo n).root.rawLength = n := by
  have hhigh : n ≤ maxLength := Nat.le_of_lt_succ (Nat.lt_of_lt_of_le hlt b.size_le)
  rw [root_of_content (content_truncateTo h hlow hlt)]
  exact Header.rawLength_withLength b.root hlow hhigh

theorem size_truncateTo (h : b.Formed) {n : Nat} (hlow : headerSize ≤ n) (hdvd : 4 ∣ n) (hlt : n < b.size) :
    (b.truncateTo n).size = n := by
  rw [size, Header.paddedLength, rawLength_truncateTo h hlow hlt, alignUp_of_dvd hdvd]

/-- Cutting a blob back to a multiple of four keeps it sound. -/
theorem Sound.truncateTo (h : b.Sound) {n : Nat} (hlow : headerSize ≤ n) (hdvd : 4 ∣ n) :
    (b.truncateTo n).Sound := by
  by_cases hlt : n < b.size
  · have e := content_truncateTo h.toFormed hlow hlt
    have hsize := size_truncateTo h.toFormed hlow hdvd hlt
    have hraw := rawLength_truncateTo h.toFormed hlow hlt
    have hbody : (b.body.take (n - headerSize)).length = n - headerSize := by
      have := h.size_eq
      rw [List.length_take]; omega
    rw [root_of_content e] at hraw
    -- the new length is a multiple of four, so the root needs no padding
    have formed := formed_of_content e h.isContainer_root (by rw [hraw]; exact hlow) (by
      rw [Header.paddedLength, hraw, alignUp_of_dvd hdvd, hbody]; omega)
    refine ⟨formed, ?_, ?_⟩
    · rw [hsize, capacity_truncateTo]
      exact Nat.le_trans (Nat.le_of_lt hlt) h.size_le_capacity
    · rw [capacity_truncateTo]; exact h.blockSize_le_capacity
  · rw [Blob.truncateTo, if_pos (Nat.not_lt.mp hlt)]
    exact h

/-! ## Making blobs -/

theorem sound_new : Sound .new := sound_ofEmptyContent rfl (Nat.le_refl _)

theorem sound_create {config : Config} (h : create config = .ok b) : b.Sound := by
  unfold create at h
  dsimp only at h
  split at h
  · cases h
  · cases h
    exact sound_ofEmptyContent rfl (Nat.le_max_right _ _)

theorem create_eq_ok {config : Config} (h : create config = .ok b) :
    b = ofContent emptyContent (max config.initialCapacity blockSize) config := by
  unfold create at h
  dsimp only at h
  split at h
  · cases h
  · cases h
    rfl

theorem alignToBlock_mono {m n : Nat} (h : m ≤ n) : alignToBlock m ≤ alignToBlock n :=
  Nat.mul_le_mul_right _ (Nat.div_le_div_right (Nat.add_le_add_right h _))

theorem alignToBlock_max (m n : Nat) : alignToBlock (max m n) = max (alignToBlock m) (alignToBlock n) := by
  unfold alignToBlock blockSize
  omega

/-- How much is allocated for `n` bytes that are adopted. -/
def adoptedCapacity (config : Config) (n : Nat) : Nat :=
  alignToBlock (max (max n config.initialCapacity) blockSize)

/-- **What adoption asks for**, and what it gives. -/
theorem adopt_eq_ok_iff {config : Config} {data : Bytes} :
    adopt config data = .ok b ↔
      ∃ root, Header.ofBytes? data = some root ∧ root.type.isContainer = true ∧
        headerSize ≤ root.rawLength ∧ root.rawLength ≤ data.length ∧ data.length ≤ config.limit ∧
        adoptedCapacity config data.length ≤ maxAllocation ∧
        b = ofContent (data.take root.paddedLength ++ .zeros (root.paddedLength - data.length))
          (adoptedCapacity config data.length) config := by
  unfold adoptedCapacity
  constructor
  case mp =>
    intro h
    cases hroot : Header.ofBytes? data with
    | none =>
      simp only [adopt, hroot] at h
      cases h
    | some root =>
      simp only [adopt, hroot] at h
      -- the checks are made in this order, and only behind the last one is there a blob
      split_ifs at h with hcontainer hlow hraw hlimit hallocation
      cases h
      exact ⟨root, rfl, by simpa using hcontainer, Nat.not_lt.mp hlow, Nat.not_lt.mp hraw,
        Nat.not_lt.mp hlimit, Nat.not_lt.mp hallocation, rfl⟩
  case mpr =>
    rintro ⟨root, hroot, hcontainer, hlow, hraw, hlimit, hallocation, rfl⟩
    simp only [adopt, hroot, hcontainer, Bool.not_true, Bool.false_eq_true, if_false,
      if_neg (Nat.not_lt.mpr hlow), if_neg (Nat.not_lt.mpr hraw), if_neg (Nat.not_lt.mpr hlimit),
      if_neg (Nat.not_lt.mpr hallocation)]

/-- **Adopted bytes make a sound blob**, also where the root's length is no multiple of four or the
    padding is missing. -/
theorem sound_adopt {config : Config} {data : Bytes} (h : adopt config data = .ok b) : b.Sound := by
  obtain ⟨root, hroot, hcontainer, hlow, hraw, -, -, rfl⟩ := adopt_eq_ok_iff.mp h
  have hdata := Header.eq_toBytes_append hroot
  have hsize : headerSize ≤ root.paddedLength := Nat.le_trans hlow (le_alignUp _)
  have hlength : root.toBytes.length = headerSize := Header.length_toBytes root
  -- the bytes that are kept start with the root's header
  have htake : data.take root.paddedLength =
      root.toBytes ++ (data.drop headerSize).take (root.paddedLength - headerSize) := by
    conv_lhs => rw [hdata]
    rw [List.take_append, List.take_of_length_le (by omega), hlength]
  have e : (ofContent (data.take root.paddedLength ++ .zeros (root.paddedLength - data.length))
      (adoptedCapacity config data.length) config).content =
      root.toBytes ++ ((data.drop headerSize).take (root.paddedLength - headerSize) ++
        .zeros (root.paddedLength - data.length)) := by
    rw [content_ofContent, htake, List.append_assoc]
  have formed := formed_of_content e hcontainer hlow (by
    simp only [List.length_append, List.length_take, List.length_drop, Bytes.length_zeros]
    omega)
  refine ⟨formed, ?_, ?_⟩
  · -- whole blocks hold the data, and with it the padding of the root
    rw [size, root_of_content e]
    simp only [ofContent, adoptedCapacity, Header.paddedLength, alignUp, alignToBlock, blockSize]
    omega
  · exact Nat.le_trans (Nat.le_max_right _ _) (le_alignToBlock _)

/-! ## Writes -/

theorem Sound.put (h : b.Sound) {item : Item} {offset : Nat} (hput : b.put item = .ok (offset, b')) :
    b'.Sound := by
  obtain ⟨-, rfl, hfits⟩ := put_eq_ok hput
  exact h.append hfits

theorem Sound.appendRoom (h : b.Sound) {f : Field}
    (hroom : b.refusal? f.header.dataLength = none) : (b.appendRoom f).Sound := by
  refine h.append ?_
  have hstop := refusal?_eq_none_iff.mp hroom
  rw [← stopOf_eq, Bytes.length_zeros]
  exact hstop

/-- Whatever is copied over new room, the blob stays sound, and of the root only the length changes. -/
theorem Sound.copyOver (h : b.Sound) {f : Field} (hroom : b.refusal? f.header.dataLength = none)
    (copy : Bytes) {after : Blob}
    (hafter : after = ((b.appendRoom f).patch b.size copy).clearPadding b.size) :
    after.Sound ∧ after.root = b.root.withLength after.size := by
  have hbehind := h.toFormed.headerSize_le_size
  have hroomy := h.appendRoom hroom
  obtain ⟨hsound, hroot⟩ := (hroomy.patch hbehind copy).clearPadding hbehind
  rw [← hafter] at hsound hroot
  refine ⟨hsound, ?_⟩
  have hfits : b.size + (Item.toBytes ⟨f.type, .zeros f.header.dataLength⟩).length ≤ b.config.limit := by
    rw [← stopOf_eq, Bytes.length_zeros]
    exact refusal?_eq_none_iff.mp hroom
  -- patch and clearing stay behind the root, so only the appended room changed it
  have hroot := hroot.trans (formed_patch hroomy.toFormed hbehind copy).2
  rw [size, hroot, ← size, Blob.appendRoom, size_append h.toFormed hfits]
  exact (append_extends h.toFormed _ hfits).root_eq

theorem putField_eq_ok {f : Field} {offset : Nat} (h : b.putField f = .ok (offset, b')) :
    b.refusal? f.header.dataLength = none ∧ offset = b.size ∧
      b' = ((b.appendRoom f).patch b.size (f.bytes.take (copiedLength f))).clearPadding b.size := by
  unfold putField at h
  split at h
  · cases h
  · next hroom => cases h; exact ⟨hroom, rfl, rfl⟩

theorem putCopy_eq_ok {source offset : Nat} (h : b.putCopy source = .ok (offset, b')) :
    ∃ f, b.field? source = some f ∧ b.refusal? f.header.dataLength = none ∧ offset = b.size ∧
      b' = ((b.appendRoom f).patch b.size
        ((b.appendRoom f).storage.slice source (source + copiedLength f))).clearPadding b.size := by
  unfold putCopy at h
  split at h
  · cases h
  · next f hf =>
    split at h
    · cases h
    · next hroom => cases h; exact ⟨f, hf, hroom, rfl, rfl⟩

end Blob

/-! ## Texts -/

namespace Json

open Blob

/-- The containers that are being filled lie behind the root's header. -/
def OpenFields.Behind (outer : OpenFields) : Prop :=
  ∀ offset, some offset ∈ outer → headerSize ≤ offset

namespace OpenFields

theorem behind_nil : Behind [] := fun _ h => absurd h List.not_mem_nil

theorem behind_root : Behind [none] := fun _ h => by
  rw [List.mem_singleton] at h
  cases h

theorem Behind.tail {outer : OpenFields} (h : outer.Behind) : Behind outer.tail :=
  fun offset hmem => h offset (List.mem_of_mem_tail hmem)

theorem Behind.push {outer : OpenFields} (h : outer.Behind) {offset : Nat}
    (hoffset : headerSize ≤ offset) (token : Token) : (outer.push token offset).Behind := by
  unfold OpenFields.push
  split
  · intro place hmem
    rcases List.mem_cons.mp hmem with heq | hmem
    · cases heq; exact hoffset
    · exact h place hmem
  · exact h

end OpenFields

/-- Only containers are opened. -/
theorem Token.isContainer_item {token : Token} {item : Item} (hitem : token.item? = some item)
    (hopening : token.isOpening = true) : item.type.isContainer = true := by
  cases token with
  | opening bracket => cases hitem; cases bracket <;> rfl
  | null | bool | number | string | key | closing => cases hopening

theorem closeInnermost_sound {b : Blob} (hb : b.Sound) {outer : OpenFields} (houter : outer.Behind) :
    (closeInnermost b outer).Sound := by
  unfold closeInnermost
  split
  · exact (hb.close (houter _ List.mem_cons_self)).1
  · exact hb

/-- **Writing tokens keeps a blob sound**, however far it gets. -/
theorem writeTokens_sound (fillsRoot : Bool) (tokens : List (Token × Position)) {outer : OpenFields}
    {b : Blob} (hb : b.Sound) (houter : outer.Behind) :
    (writeTokens fillsRoot outer b tokens).blob.Sound := by
  induction tokens generalizing outer b with
  -- induction on the tokens: each is a closing, the root itself, a refusal, or a field
  | nil => exact hb
  | cons entry rest ih =>
    obtain ⟨token, refusal⟩ := entry
    rw [writeTokens]
    split
    · exact ih (closeInnermost_sound hb houter) houter.tail
    -- a bracket that fills the root changes its type only; what is refused room ends the writing
    · next item hitem =>
      split
      · next hroot =>
        have hopening : token.isOpening = true := (Bool.and_eq_true_iff.mp hroot).2
        have hcontainer := Token.isContainer_item hitem hopening
        exact ih (hb.withRootType hcontainer) OpenFields.behind_root
      · split
        · exact hb
        · next hroom =>
          have hfits : b.size + item.toBytes.length ≤ b.config.limit := by
            rw [← stopOf_eq]
            exact refusal?_eq_none_iff.mp hroom
          exact ih (hb.append hfits) (houter.push hb.toFormed.headerSize_le_size token)

/-- **Decoding keeps a blob sound**, also when what was written is removed again. -/
theorem decode_sound (fillsRoot : Bool) {b : Blob} (hb : b.Sound) (text : String) :
    (decode fillsRoot b text).blob.Sound := by
  have hwritten := writeTokens_sound fillsRoot (Scan.ofText text).tokens hb OpenFields.behind_nil
  -- the type that is restored is that of the root before
  have htype : b.head.type.isContainer = true := by
    rw [hb.toFormed.head_eq]
    exact hb.isContainer_root
  unfold decode
  dsimp only
  split
  · exact hwritten
  · exact (hwritten.truncateTo hb.toFormed.headerSize_le_size b.dvd_size).withRootType htype

end Json

/-! ## Programs -/

/-- **Every way to make a blob makes a sound one.** -/
theorem Origin.make_sound {origin : Origin} {b : Blob} {journal : Journal}
    (h : origin.make = (.ok b, journal)) : b.Sound := by
  cases origin with
  | new => cases h; exact Blob.sound_new
  | create config => exact Blob.sound_create (congrArg Prod.fst h)
  | adopt config data =>
    unfold Origin.make at h
    dsimp only at h
    split at h
    · cases h
    · next hadopt => cases h; exact Blob.sound_adopt hadopt
  | json config text =>
    unfold Origin.make Blob.ofJson at h
    dsimp only at h
    split at h
    · cases h
    · next hcreate =>
      split at h
      · cases h
      · cases h
        -- the text is written to a blob that was just created
        exact Json.decode_sound true (Blob.sound_create hcreate) text

namespace Operation

/-- The place that an operation closes lies behind the root's header. -/
def Behind : Operation Nat → Prop
  | close container => headerSize ≤ container
  | _ => True

theorem ofWrite_sound {b : Blob} (hb : b.Sound) {w : Blob.Written} {note : Nat → Journal}
    (hw : ∀ offset b', w = .ok (offset, b') → offset = b.size ∧ b'.Sound) :
    (ofWrite b w note).blob.Sound ∧
      ∀ offset, (ofWrite b w note).result = .ok (some offset) → offset = b.size := by
  cases w with
  | error e => exact ⟨hb, fun _ h => nomatch h⟩
  | ok written =>
    obtain ⟨offset, b'⟩ := written
    obtain ⟨rfl, hsound⟩ := hw offset b' rfl
    refine ⟨hsound, fun offset' h => ?_⟩
    cases h
    rfl

/-- An item that is put leaves a sound blob, and its field starts where the content ended. -/
theorem put_sound {b : Blob} (hb : b.Sound) (item : Item) (offset : Nat) (b' : Blob)
    (h : b.put item = .ok (offset, b')) : offset = b.size ∧ b'.Sound :=
  ⟨(Blob.put_eq_ok h).1, hb.put h⟩

/-- **Every operation keeps a blob sound**, and a new field starts where the content ended. -/
theorem run_sound {b : Blob} (hb : b.Sound) (op : Operation Nat) (hop : op.Behind) :
    (op.run b).blob.Sound ∧ ∀ offset, (op.run b).result = .ok (some offset) → offset = b.size := by
  cases op with
  | putScalar | putInt | putBool | putReal | putDouble | putSingle | openContainer =>
    exact ofWrite_sound hb (put_sound hb _)
  | putString text =>
    refine ofWrite_sound hb ?_
    -- a text is put like any other item
    rw [Blob.putString_eq]
    exact put_sound hb _
  | putField f =>
    refine ofWrite_sound hb fun offset b' h => ?_
    obtain ⟨hroom, hoffset, rfl⟩ := Blob.putField_eq_ok h
    exact ⟨hoffset, (hb.copyOver hroom _ rfl).1⟩
  | putCopy source =>
    -- a copy is appended like a field that is given, from whatever place it is read
    rw [run]
    cases hcopy : b.putCopy source with
    | error e => exact ⟨hb, fun _ h => nomatch h⟩
    | ok written =>
      obtain ⟨offset, b'⟩ := written
      obtain ⟨f, -, hroom, rfl, rfl⟩ := Blob.putCopy_eq_ok hcopy
      refine ⟨(hb.copyOver hroom _ rfl).1, fun offset h => ?_⟩
      cases h
      rfl
  | close container => exact ⟨(hb.close hop).1, fun _ h => nomatch h⟩
  | putJson text =>
    -- decoding is sound with a fault and without one
    rw [run]
    split
    · exact ⟨Json.decode_sound false hb text, fun _ h => nomatch h⟩
    · exact ⟨Json.decode_sound false hb text, fun _ h => nomatch h⟩
  | resize n =>
    rw [run]
    unfold Blob.resize
    dsimp only
    split_ifs
    · exact ⟨hb, fun _ h => nomatch h⟩
    · exact ⟨hb.reserve n, fun _ h => nomatch h⟩
  | reset => exact ⟨hb.reset, fun _ h => nomatch h⟩

end Operation

end FieldTree
