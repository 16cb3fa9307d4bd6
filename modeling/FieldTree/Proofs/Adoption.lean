import FieldTree.Proofs.Independence
import FieldTree.Proofs.Preservation

/-!
# Adopted Blobs

The content of a blob can be stored, with anything behind it, and adopted later under the same configuration.
Adoption never refuses it, drops what stands behind the root, and allocates again. What is allocated does not
matter to any operation, so the two blobs go on alike.

## Architecture

- `Blob.Allocatable`, `Blob.invariant_allocatable`: what a configuration asks for can be allocated again.
- `Blob.adopt_content`: what adoption makes of a content and what stands behind it.
- `Blob.View`: all that can be read of a blob, whatever is allocated.
- `Session.trace_adopt`: **the main statement**, an adopted blob against the one that was stored.
-/

namespace FieldTree

namespace Blob

variable {b b' : Blob}

/-! ## Adopting a content -/

/-- What the configuration asks for at first can be allocated. -/
def Allocatable (b : Blob) : Prop := alignToBlock b.config.initialCapacity ≤ maxAllocation

theorem alignToBlock_maxLength_le : alignToBlock maxLength ≤ maxAllocation := by decide +kernel

/-- Bytes that are short enough for a root ask for no more than the configuration does. -/
theorem adoptedCapacity_le_iff {config : Config} {n : Nat} (hn : n ≤ maxLength) :
    adoptedCapacity config n ≤ maxAllocation ↔ alignToBlock config.initialCapacity ≤ maxAllocation := by
  have hlength : alignToBlock n ≤ maxAllocation :=
    Nat.le_trans (alignToBlock_mono hn) alignToBlock_maxLength_le
  have hblock : alignToBlock blockSize ≤ maxAllocation := by decide +kernel
  simp only [adoptedCapacity, alignToBlock_max, Nat.max_le, hlength, hblock, true_and, and_true]

/-- **A blob that was made can be made again**, with as much room. -/
theorem invariant_allocatable : Invariant Allocatable where
  toPreserved := preserved_of_config fun c => alignToBlock c.initialCapacity ≤ maxAllocation
  new := show alignToBlock blockSize ≤ maxAllocation by decide +kernel
  create := by
    intro config b h
    unfold create at h
    dsimp only at h
    split at h
    · cases h
    · next hcapacity =>
      cases h
      -- what is allowed at first is no more than the largest content
      have hinitial : config.initialCapacity ≤ maxLength :=
        calc config.initialCapacity
          _ ≤ max config.initialCapacity blockSize := Nat.le_max_left _ _
          _ ≤ max config.limit blockSize := Nat.not_lt.mp hcapacity
          _ ≤ maxLength := Nat.max_le.mpr ⟨Nat.min_le_right _ _, by decide⟩
      exact Nat.le_trans (alignToBlock_mono hinitial)
        alignToBlock_maxLength_le
  adopt := by
    intro config data b h
    obtain ⟨root, -, -, -, -, hlimit, hallocation, rfl⟩ := adopt_eq_ok_iff.mp h
    exact (adoptedCapacity_le_iff (Nat.le_trans hlimit (Nat.min_le_right _ _))).mp hallocation

/-- **The content of a blob is adopted**, and nothing of what stands behind it. -/
theorem adopt_content (h : b.Sound) (hallocatable : b.Allocatable) {rest : Bytes}
    (hfits : b.size + rest.length ≤ b.config.limit) :
    adopt b.config (b.content ++ rest) =
      .ok (ofContent b.content (adoptedCapacity b.config (b.size + rest.length)) b.config) := by
  have hlength : (b.content ++ rest).length = b.size + rest.length := by
    rw [List.length_append, h.length_content]
  have hroot : Header.ofBytes? (b.content ++ rest) = some b.root := by
    rw [h.toFormed.content_eq, List.append_assoc, Header.ofBytes?_toBytes]
  have hkept : (b.content ++ rest).take b.root.paddedLength = b.content := List.take_left' h.length_content
  have hmissing : b.root.paddedLength - (b.size + rest.length) = 0 :=
    Nat.sub_eq_zero_of_le (Nat.le_add_right _ _)
  apply adopt_eq_ok_iff.mpr
  rw [hlength]
  refine ⟨b.root, hroot, h.isContainer_root, h.headerSize_le_root, ?_, hfits, ?_, ?_⟩
  · exact Nat.le_trans b.rawLength_le_size (Nat.le_add_right _ _)
  · exact (adoptedCapacity_le_iff (Nat.le_trans hfits (Nat.min_le_right _ _))).mpr hallocatable
  · rw [hkept, hmissing]
    exact congrArg (ofContent · _ _) (List.append_nil _).symm

/-! ## What is read -/

/-- All that can be read of a blob, but for how much is allocated. -/
structure View where
  content : Bytes
  size : Nat
  isEmpty : Bool
  head : Field
  field? : Nat → Option Field

/-- What is read of a blob. -/
def view (b : Blob) : View := ⟨b.content, b.size, b.isEmpty, b.head, b.field?⟩

theorem Alike.view_eq (h : b.Alike b') : b.view = b'.view := by
  have hisEmpty : b.isEmpty = b'.isEmpty := by simp only [Blob.isEmpty, h.root]
  have hfield : b.field? = b'.field? := funext h.field?
  simp only [view, h.content, h.size, hisEmpty, h.head, hfield]

end Blob

/-- **Giving the buffer away gives its content.** -/
theorem Buffer.release_memory {b : Blob} (h : b.Sound) : b.memory.release = b.content := by
  have hmin : min b.memory.size b.memory.bytes.length = b.size := by
    rw [size_memory h, length_memory h]
    exact Nat.min_eq_left h.size_le_capacity
  rw [release, hmin, bytes_memory_eq h]
  exact List.take_left' h.length_content

/-! ## Main statement -/

namespace Session

theorem setBlob_blob (s : Session) (i : Nat) : s.setBlob i (s.blob i) = s := by
  have hset : s.blobs.set i (s.blob i) = s.blobs := by
    cases hb : s.blobs[i]? with
    | none => exact List.set_eq_of_length_le (List.getElem?_eq_none_iff.mp hb)
    | some b =>
      rw [blob_eq hb]
      obtain ⟨hi, rfl⟩ := List.getElem?_eq_some_iff.mp hb
      exact List.set_getElem_self hi
  rw [setBlob, hset]

/-- **A blob that is stored and adopted goes on like the one it comes from**, whatever was done to that one,
    whatever stands behind the stored bytes and whatever offsets are known: every program returns the same on
    both, and leaves blobs of which the same is read. The same is true of their buffers. -/
theorem trace_adopt (n : Nat) (history : List Step) {s : Session} (hs : (start n).run history = s) (i : Nat)
    {b : Blob} (hb : s.blob i = b) (junk : Bytes) (hfits : b.size + junk.length ≤ b.config.limit) :
    b.memory.content? = some b.content ∧ b.memory.release = b.content ∧
      ∃ c, Blob.adopt b.config (b.content ++ junk) = .ok c ∧
        Buffer.adopt? b.config (b.content ++ junk) = some (.ok c.memory) ∧
        c.content = b.content ∧ c.config = b.config ∧
        c.memory.content? = some b.content ∧ c.memory.release = b.content ∧
        c.memory.bytes.drop c.size = Bytes.zeros (c.capacity - c.size) ∧
        ∀ (refs handles : List Nat) (program : List Step) (stored adopted : Session),
          s.knowing refs handles = stored →
          stored.step (.make i (.adopt b.config (b.content ++ junk))) = adopted →
          adopted.trace program = stored.trace program ∧
            (∀ k, ((adopted.run program).blob k).view = ((stored.run program).blob k).view) ∧
            ((∀ offset ∈ refs ++ handles, Placed offset) →
              ∃ m shown, (Machine.start? n).bind (·.run? history) = some m ∧
                (m.knowing refs handles).trace? program = some shown ∧
                ((m.knowing refs handles).step? (.make i (.adopt b.config (b.content ++ junk)))).bind
                  (·.trace? program) = some shown) := by
  have hsession : s.Sound := hs ▸ (Sound.start n).run history
  have hsound : b.Sound := hb ▸ hsession.blob i
  -- what the blob was made with can be allocated once more, so adoption does not fail
  have hallocatable : b.Allocatable := by
    rw [← hb, ← hs]
    exact blob_run Blob.invariant_allocatable n history i
  have hadopt := Blob.adopt_content hsound hallocatable hfits
  generalize hc : Blob.ofContent b.content (Blob.adoptedCapacity b.config (b.size + junk.length)) b.config = c
    at hadopt
  have hsound' : c.Sound := Blob.sound_adopt hadopt
  have hcontent : c.content = b.content := hc ▸ rfl
  have hconfig : c.config = b.config := hc ▸ rfl
  -- all that differs is what is allocated
  have halike : c.Alike b := ⟨Storage.ext hcontent, congrArg Config.maxSize hconfig⟩
  have hmemory : Buffer.adopt? b.config (b.content ++ junk) = some (.ok c.memory) := by
    rw [Buffer.adopt?_eq, hadopt]
    rfl
  have hread := Buffer.content?_memory hsound'
  have hreleased := Buffer.release_memory hsound'
  rw [hcontent] at hread hreleased
  refine ⟨Buffer.content?_memory hsound, Buffer.release_memory hsound, c, hadopt, hmemory, hcontent, hconfig,
    hread, hreleased, Buffer.drop_size_memory hsound', ?_⟩
  rintro refs handles program stored adopted rfl rfl
  -- the step puts the new blob in the place of one that it is like
  have hstep : (s.knowing refs handles).step (.make i (.adopt b.config (b.content ++ junk))) =
      (s.knowing refs handles).setBlob i c := by
    simp only [step, make, Origin.make, hadopt]
  have hset := (Alike.refl (s.knowing refs handles)).setBlob i halike
  have hsame : (s.knowing refs handles).setBlob i b = s.knowing refs handles := by
    rw [← hb]
    exact setBlob_blob (s.knowing refs handles) i
  rw [hsame, ← hstep] at hset
  -- alike sessions go on alike, on the blobs and in memory
  have htrace := hset.trace_eq program
  refine ⟨htrace, fun k => ((hset.run program).blob k).view_eq, ?_⟩
  intro hplaced
  have hknowing := hsession.knowing hplaced
  refine ⟨s.memory, _, ?_, Machine.trace?_memory hknowing program, ?_⟩
  · rw [Machine.start?_eq, Option.bind_some, Machine.run?_memory (Sound.start n), hs]
  · rw [← htrace]
    exact Machine.step?_trace?_memory hknowing _ program

/-- A root whose length is no multiple of four, without its padding, that is adopted and given room. -/
def sampleUnpadded : List Step :=
  [.make 0 (.adopt { initialCapacity := 300, maxSize := 64 } [9, 0, 0, 6, 0x6b, 0x6c]), .perform 0 (.resize 40)]

/-- A container that is filled by a text and closed, a text that fails, and a growth that is refused. -/
def sampleContinuation : List Step :=
  [.perform 0 (.openContainer .brace), .perform 0 (.putJson "[1,true]"), .perform 0 (.close (.container 0)),
    .perform 0 (.putCopy (.field 0)), .perform 0 (.putJson "[1,[2"), .perform 0 (.resize 65)]

theorem trace_adopt_sampleUnpadded :
    ∃ s b, (start 1).run sampleUnpadded = s ∧ s.blob 0 = b ∧ b.size + [1, 2, 3].length ≤ b.config.limit ∧
      b.memory.release = b.content ∧
      ∃ c, Blob.adopt b.config (b.content ++ [1, 2, 3]) = .ok c ∧ c.memory.content? = some b.content ∧
        ∃ stored adopted, s.knowing [4] [8] = stored ∧
          stored.step (.make 0 (.adopt b.config (b.content ++ [1, 2, 3]))) = adopted ∧
          adopted.trace sampleContinuation = stored.trace sampleContinuation ∧
          (∀ offset ∈ [4] ++ [8], Placed offset) ∧
          ∃ m shown, (Machine.start? 1).bind (·.run? sampleUnpadded) = some m ∧
            (m.knowing [4] [8]).trace? sampleContinuation = some shown := by
  have hfits : (((start 1).run sampleUnpadded).blob 0).size + [1, 2, 3].length ≤
      (((start 1).run sampleUnpadded).blob 0).config.limit := by decide +kernel
  have hplaced : ∀ offset ∈ [4] ++ [8], Placed offset := by simp [Placed, headerSize]
  obtain ⟨-, hrelease, c, hadopt, -, -, -, hcontent, -, -, hprogram⟩ :=
    trace_adopt 1 sampleUnpadded rfl 0 rfl [1, 2, 3] hfits
  obtain ⟨htrace, -, hmemory⟩ := hprogram [4] [8] sampleContinuation _ _ rfl rfl
  obtain ⟨m, shown, hm, hshown, -⟩ := hmemory hplaced
  exact ⟨_, _, rfl, rfl, hfits, hrelease, c, hadopt, hcontent, _, _, rfl, rfl, htrace, hplaced, m, shown, hm,
    hshown⟩

end Session

end FieldTree
