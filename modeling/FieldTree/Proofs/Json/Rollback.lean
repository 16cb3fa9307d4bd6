import FieldTree.Proofs.Runs

/-!
# What a Faulty Text Leaves Behind

A text that is appended to a blob is written while it is scanned. When it turns out to be faulty, what was
written is cut off again, and of the blob before only two things are remembered for that: its size and the
type of its root.

## Architecture

- `Filling`: a blob while a text is being written to it, with one lemma for each change.
- `writeTokens_filling`: **however far writing gets, what the blob held is still in front.**
- `Filling.rollback`: the cut brings back the body, and the root up to its padding.
- `Session.putJson_fault`: **the main statement**, for every blob that a program can make.
- `Session.putJson_fault_sampleAdopted`: where the root's length is no multiple of four, it is rounded up.
-/

namespace FieldTree.Json

open Blob

/-- The blob `b` with a part of a text behind it: what it held is in front, and the containers that are being
    filled lie behind that. The root is as it was until something is written, and then covers the whole. -/
structure Filling (b : Blob) (outer : OpenFields) (b' : Blob) : Prop where
  sound : b'.Sound
  front : b.body <+: b'.body
  root : (b'.root = b.root ∧ b'.body = b.body) ∨ (b.size < b'.size ∧ b'.root = b.root.withLength b'.size)
  behind : ∀ offset, some offset ∈ outer → b.size ≤ offset

namespace Filling

variable {b b' : Blob} {outer : OpenFields}

theorem start (hb : b.Sound) : Filling b [] b where
  sound := hb
  front := List.prefix_refl _
  root := .inl ⟨rfl, rfl⟩
  behind := by
    intro offset hmem
    cases hmem

theorem size_le (h : Filling b outer b') (hb : b.Sound) : b.size ≤ b'.size := by
  rw [hb.toFormed.size_eq, h.sound.toFormed.size_eq]
  exact Nat.add_le_add_left h.front.length_le headerSize

/-- One more field at the end. -/
theorem append (h : Filling b outer b') (hb : b.Sound) {item : Item}
    (hfits : b'.size + item.toBytes.length ≤ b'.config.limit) (token : Token) :
    Filling b (outer.push token b'.size) (b'.append item) := by
  have e := append_extends h.sound.toFormed item hfits
  have hsize := h.size_le hb
  constructor
  case sound => exact h.sound.append hfits
  case front =>
    rw [e.body_eq]
    exact h.front.trans (List.prefix_append _ _)
  case root =>
    have hitem : headerSize + item.payload.length ≤ item.toBytes.length := item.le_toBytes_length
    have hgrown := e.size_eq h.sound.toFormed
    refine .inr ⟨by unfold headerSize at hitem; omega, ?_⟩
    -- whatever length the root had, it has the new one
    rw [e.root_eq, hgrown]
    rcases h.root with ⟨hroot, -⟩ | ⟨-, hroot⟩
    · rw [hroot]
    · rw [hroot, Header.withLength_withLength]
  case behind =>
    intro offset hmem
    unfold OpenFields.push at hmem
    split at hmem
    · rcases List.mem_cons.mp hmem with heq | hmem
      · cases heq
        exact hsize
      · exact h.behind offset hmem
    · exact h.behind offset hmem

/-- A change behind what the blob held. -/
theorem patch (h : Filling b outer b') (hb : b.Sound) {offset : Nat} (hoffset : b.size ≤ offset) (p : Bytes) :
    Filling b outer (b'.patch offset p) := by
  have hlow := Nat.le_trans hb.toFormed.headerSize_le_size hoffset
  obtain ⟨-, hroot⟩ := formed_patch h.sound.toFormed hlow p
  have hsize := size_patch h.sound.toFormed hlow p
  have hsound := h.sound.patch hlow p
  -- what is patched begins behind the old body
  obtain ⟨i, rfl⟩ : ∃ i, offset = headerSize + (b.body.length + i) := by
    rw [hb.toFormed.size_eq] at hoffset
    obtain ⟨i, rfl⟩ := Nat.exists_eq_add_of_le hoffset
    exact ⟨i, Nat.add_assoc _ _ _⟩
  have hbody := body_of_content (content_patch_behind h.sound.toFormed (b.body.length + i) p)
  obtain ⟨rest, hrest⟩ := h.front
  constructor
  case sound => exact hsound
  case front =>
    rw [hbody, ← hrest, Bytes.patch_append_right]
    exact List.prefix_append _ _
  case root =>
    rw [hroot, hsize]
    rcases h.root with ⟨hsame, hnothing⟩ | hgrown
    -- with nothing behind it there is nothing to patch
    · refine .inl ⟨hsame, ?_⟩
      rw [hbody, hnothing, Bytes.patch_of_length_le (Nat.le_add_right _ _)]
    · exact .inr hgrown
  case behind => exact h.behind

/-- The innermost container is closed. -/
theorem close (h : Filling b outer b') (hb : b.Sound) : Filling b outer.tail (closeInnermost b' outer) := by
  have hnext : Filling b outer.tail b' :=
    { h with behind := fun offset hmem => h.behind offset (List.mem_of_mem_tail hmem) }
  unfold closeInnermost
  split
  · next offset rest =>
    have hoffset := h.behind offset List.mem_cons_self
    unfold Blob.close
    split
    · unfold Blob.patchLength
      split
      · exact hnext
      · exact hnext.patch hb hoffset _
    · exact hnext
  · exact hnext

/-- **Cutting back gives the old body**, and the old root but for its padding. -/
theorem rollback (h : Filling b outer b') (hb : b.Sound) :
    ((b'.truncateTo b.size).withRootType b.head.type).body = b.body ∧
      ((b'.truncateTo b.size).withRootType b.head.type).root =
        if b'.size = b.size then b.root else b.root.withLength b.size := by
  have hlow := hb.toFormed.headerSize_le_size
  have hsound := h.sound.truncateTo hlow b.dvd_size
  have hcontent := content_withRootType hsound.toFormed b.head.type
  -- the root's type is that of a container, so restating it changes nothing
  have hknown : b.root.type ≠ .invalid := by
    intro hinvalid
    have hcontainer := hb.isContainer_root
    rw [hinvalid] at hcontainer
    cases hcontainer
  have htype : b.head.type = b.root.type := by
    rw [hb.toFormed.head_eq]
    rfl
  rw [body_of_content hcontent, root_of_content hcontent, htype]
  rcases h.root with ⟨hroot, hbody⟩ | ⟨hgrown, hroot⟩
  case inl =>
    -- nothing was written, and nothing is cut off
    have hsize : b'.size = b.size := by rw [Blob.size, hroot, Blob.size]
    rw [Blob.truncateTo, if_pos (Nat.le_of_eq hsize), if_pos hsize, hroot]
    exact ⟨hbody, Header.withType_type hknown⟩
  case inr =>
    have htruncated := content_truncateTo h.sound.toFormed hlow hgrown
    have hlength : b.size - headerSize = b.body.length := by
      rw [hb.toFormed.size_eq, Nat.add_sub_cancel_left]
    rw [if_neg (Nat.ne_of_gt hgrown), body_of_content htruncated, root_of_content htruncated, hroot,
      Header.withLength_withLength, hlength]
    refine ⟨(List.prefix_iff_eq_take.mp h.front).symm, ?_⟩
    exact Header.withType_type (h := b.root.withLength b.size) hknown

end Filling

/-- **However far writing gets, what the blob held is still in front.** -/
theorem writeTokens_filling {b : Blob} (hb : b.Sound) (tokens : List (Token × Position)) {outer : OpenFields}
    {b' : Blob} (h : Filling b outer b') :
    ∃ outer', Filling b outer' (writeTokens false outer b' tokens).blob := by
  -- induction on the tokens: each is a closing, a refusal, or a field
  induction tokens generalizing outer b' with
  | nil => exact ⟨outer, h⟩
  | cons entry rest ih =>
    obtain ⟨token, refusal⟩ := entry
    rw [writeTokens]
    split
    · exact ih (h.close hb)
    · next item hitem =>
      simp only [Bool.false_and, Bool.false_eq_true, if_false]
      split
      · exact ⟨outer, h⟩
      · next hroom =>
        have hfits : b'.size + item.toBytes.length ≤ b'.config.limit := by
          rw [← stopOf_eq]
          exact refusal?_eq_none_iff.mp hroom
        exact ih (h.append hb hfits token)

/-- A blob to which a text was written as far as it goes, before anything is cut off. -/
def written (b : Blob) (text : String) : Blob := (writeTokens false [] b (Scan.ofText text).tokens).blob

theorem exists_filling_written {b : Blob} (hb : b.Sound) (text : String) :
    ∃ outer, Filling b outer (written b text) :=
  writeTokens_filling hb _ (Filling.start hb)

/-- A fault means that decoding ended in the cut. -/
theorem blob_putJson_of_fault {b : Blob} {text : String} {fault : Fault}
    (h : (b.putJson text).fault? = some fault) :
    (b.putJson text).blob = ((written b text).truncateTo b.size).withRootType b.head.type := by
  unfold Blob.putJson decode at h ⊢
  dsimp only at h ⊢
  split at h
  · next hnone =>
    have hwritten : (writeTokens false [] b (Scan.ofText text).tokens).fault? = none :=
      (Option.or_eq_none_iff.mp hnone).1
    rw [hwritten] at h
    cases h
  · rfl

end FieldTree.Json

namespace FieldTree.Blob

variable {b : Blob}

/-- The size as a length of the root: it is stated as it is, and leads to the same size. -/
theorem rawLength_withLength_size (hb : b.Sound) (hmax : b.size ≤ maxLength) :
    (b.root.withLength b.size).rawLength = b.size ∧ (b.root.withLength b.size).paddedLength = b.size := by
  have hraw := Header.rawLength_withLength b.root hb.toFormed.headerSize_le_size hmax
  refine ⟨hraw, ?_⟩
  rw [Header.paddedLength, hraw, alignUp_of_dvd b.dvd_size]

/-- The size is the root's length exactly where that needs no padding. -/
theorem rawLength_eq_size_iff : b.root.rawLength = b.size ↔ 4 ∣ b.root.rawLength := by
  constructor
  · intro h
    rw [h]
    exact b.dvd_size
  · intro h
    exact (alignUp_of_dvd h).symm

theorem isEmpty_eq (hb : b.Sound) : b.isEmpty = decide (b.size ≤ headerSize) := by
  have hlow := hb.headerSize_le_root
  unfold isEmpty
  rw [decide_eq_decide, size, Header.paddedLength]
  unfold alignUp headerSize at *
  omega

/-- Where something was written, there was room for more than the old size. -/
theorem size_le_of_written (hb : b.Sound) {text : String} (h : (Json.written b text).size ≠ b.size) :
    b.size ≤ maxLength := by
  obtain ⟨outer, hfilling⟩ := Json.exists_filling_written hb text
  have hle := hfilling.size_le hb
  have hmax := (Json.written b text).size_le
  omega

/-- **What a faulty text leaves of a sound blob.** -/
theorem putJson_of_fault (hb : b.Sound) {text : String} {fault : Json.Fault}
    (h : (b.putJson text).fault? = some fault) :
    (b.putJson text).blob.size = b.size ∧
      (b.putJson text).blob.body = b.body ∧
      (b.putJson text).blob.root =
        if (Json.written b text).size = b.size then b.root else b.root.withLength b.size := by
  obtain ⟨outer, hfilling⟩ := Json.exists_filling_written hb text
  obtain ⟨hbody, hroot⟩ := hfilling.rollback hb
  rw [Json.blob_putJson_of_fault h]
  refine ⟨?_, hbody, hroot⟩
  rw [size, hroot]
  split
  · rfl
  · next hgrown => exact (rawLength_withLength_size hb (size_le_of_written hb hgrown)).2

/-- It leaves the root alone exactly where the root needs no padding or nothing was written. -/
theorem root_putJson_eq_iff (hb : b.Sound) {text : String} {fault : Json.Fault}
    (h : (b.putJson text).fault? = some fault) :
    (b.putJson text).blob.root = b.root ↔
      4 ∣ b.root.rawLength ∨ (Json.written b text).size = b.size := by
  obtain ⟨-, -, hroot⟩ := putJson_of_fault hb h
  rw [hroot]
  by_cases hwritten : (Json.written b text).size = b.size
  case pos => simp only [hwritten, if_true, or_true]
  case neg =>
    have hraw := (rawLength_withLength_size hb (size_le_of_written hb hwritten)).1
    simp only [hwritten, if_false, or_false]
    rw [← rawLength_eq_size_iff]
    -- the length is rounded up to the size, which changes it unless it was the size already
    constructor
    · intro hsame
      rw [hsame] at hraw
      exact hraw
    · intro haligned
      rw [← haligned]
      exact Header.withLength_rawLength hb.headerSize_le_root

end FieldTree.Blob

namespace FieldTree.Session

/-- **A faulty text leaves size and body of a blob as they were.** It leaves no trace at all exactly where the
    root's length is a multiple of four or nothing was written; else that length is rounded up. -/
theorem putJson_fault (n : Nat) (steps : List Step) (i : Nat) {b : Blob}
    (hb : ((start n).run steps).blob i = b) {text : String} {fault : Json.Fault}
    (h : (b.putJson text).fault? = some fault) :
    (b.putJson text).blob.size = b.size ∧
      (b.putJson text).blob.isEmpty = b.isEmpty ∧
      (b.putJson text).blob.content.drop headerSize = b.content.drop headerSize ∧
      (b.putJson text).blob.root =
        (if (Json.written b text).size = b.size then b.root else b.root.withLength b.size) ∧
      ((b.putJson text).blob.content = b.content ∧ (b.putJson text).blob.root = b.root ↔
        4 ∣ b.root.rawLength ∨ (Json.written b text).size = b.size) := by
  have hb : b.Sound := hb ▸ ((Sound.start n).run steps).blob i
  have hafter : (b.putJson text).blob.Sound := Json.decode_sound false hb text
  obtain ⟨hsize, hbody, hroot⟩ := Blob.putJson_of_fault hb h
  refine ⟨hsize, ?_, hbody, hroot, ?_⟩
  · rw [Blob.isEmpty_eq hafter, Blob.isEmpty_eq hb, hsize]
  · rw [← Blob.root_putJson_eq_iff hb h]
    constructor
    · intro hsame
      exact hsame.2
    · intro hsame
      refine ⟨?_, hsame⟩
      rw [hafter.toFormed.content_eq, hb.toFormed.content_eq, hsame, hbody]

/-- A blob of at most 48 bytes, with a container that is still open. -/
def sampleProgram : List Step :=
  [.make 0 (.create { maxSize := 48 }), .perform 0 (.openContainer .square), .perform 0 (.putInt 300)]

/-- An object that is refused in its second nested container. -/
def sampleObject : String := "\x7b\"k\":[1,\x7b\"m\":2\x7d]\x7d"

theorem putJson_fault_sampleProgram :
    ∃ b fault, ((start 1).run sampleProgram).blob 0 = b ∧ (b.putJson sampleObject).fault? = some fault ∧
      (b.putJson sampleObject).blob.size = b.size ∧
      (b.putJson sampleObject).blob.isEmpty = b.isEmpty ∧
      (b.putJson sampleObject).blob.content.drop headerSize = b.content.drop headerSize ∧
      (b.putJson sampleObject).blob.root =
        (if (Json.written b sampleObject).size = b.size then b.root else b.root.withLength b.size) ∧
      ((b.putJson sampleObject).blob.content = b.content ∧ (b.putJson sampleObject).blob.root = b.root ↔
        4 ∣ b.root.rawLength ∨ (Json.written b sampleObject).size = b.size) := by
  have hfault : ((((start 1).run sampleProgram).blob 0).putJson sampleObject).fault?.isSome = true := by
    decide +kernel
  obtain ⟨fault, hfault⟩ := Option.isSome_iff_exists.mp hfault
  exact ⟨_, fault, rfl, hfault, putJson_fault 1 sampleProgram 0 rfl hfault⟩

/-- An array whose length of five is no multiple of four, with its one byte of payload. -/
def sampleAdopted : Step := .make 0 (.adopt {} [0x09, 0, 0, 0x05, 0x6b])

/-- A list that is not closed is refused, and the array has three more bytes of payload. -/
theorem putJson_fault_sampleAdopted :
    (((start 1).run [sampleAdopted]).blob 0).content = [0x09, 0, 0, 0x05, 0x6b, 0, 0, 0] ∧
      ∃ fault, ((((start 1).run [sampleAdopted]).blob 0).putJson "[1").fault? = some fault ∧
        ((((start 1).run [sampleAdopted]).blob 0).putJson "[1").blob.content =
          [0x09, 0, 0, 0x08, 0x6b, 0, 0, 0] := by
  refine ⟨by decide +kernel, ⟨.endInList, ⟨1, 2⟩⟩, by decide +kernel, by decide +kernel⟩

end FieldTree.Session
