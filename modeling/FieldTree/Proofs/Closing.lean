import FieldTree.Field.Reading
import FieldTree.Proofs.Frame

/-!
# Closing

To close a container is to write the length of its header anew. Nothing is known of the offset but that it was
handed out at some time. Behind the content a close does nothing. Inside of it, the three bytes of a length are
written wherever the offset points to, and nothing else is touched.

Of a container that was opened in the content these three bytes are its own: neither a field that was put nor
anything that stood in the blob before is hit. Of an offset from elsewhere or from before a reset this is not true.
It can point into the payload of a field, and then three bytes of the payload are overwritten.

## Architecture

- `Blob.exists_split_close`: what a close inside the content leaves.
- `Blob.CloseFrame`: what holds of a close at any offset, with `Blob.closeFrame`.
- `Session.HandlesOutside`: the containers that can be closed have their headers outside of some bytes.
- `Session.close_frame`: **the main statement**, and `Session.close_sampleStale` with an offset that is out of date.
-/

namespace FieldTree

/-- Where bytes take the place of as many others, no byte outside of them changes. -/
theorem Bytes.getElem?_replaced {front old new rest : Bytes} (hlength : new.length = old.length) {k : Nat}
    (hchanged : (front ++ (new ++ rest))[k]? ≠ (front ++ (old ++ rest))[k]?) :
    front.length ≤ k ∧ k < front.length + old.length := by
  by_contra houtside
  apply hchanged
  rcases Nat.lt_or_ge k front.length with hfront | hbehind
  · rw [List.getElem?_append_left hfront, List.getElem?_append_left hfront]
  · have hrest : old.length ≤ k - front.length := by omega
    rw [List.getElem?_append_right hbehind, List.getElem?_append_right hbehind,
      List.getElem?_append_right (hlength ▸ hrest), List.getElem?_append_right hrest, hlength]

/-! ## One close -/

namespace Blob

variable {b : Blob} {offset : Nat}

/-- Behind the content a close does nothing. -/
theorem close_of_lt (hend : b.root.rawLength < offset + headerSize) : b.close offset = b := by
  unfold close canClose
  rw [decide_eq_false (Nat.not_le.mpr hend), Bool.and_false]
  rfl

/-- **Inside the content, a close states the length up to its end** in the header that is read at the offset. -/
theorem exists_split_close (hb : b.Formed) (hoffset : headerSize ≤ offset)
    (hroom : offset + headerSize ≤ b.root.rawLength) :
    ∃ (front : Bytes) (header : Header) (rest : Bytes),
      b.content = front ++ (header.toBytes ++ rest) ∧ front.length = offset ∧
        (b.close offset).content =
          front ++ ((header.withLength (b.root.rawLength - offset)).toBytes ++ rest) := by
  obtain ⟨front, header, rest, hcontent, rfl⟩ :=
    hb.exists_split (Nat.le_trans hroom b.rawLength_le_size)
  refine ⟨front, header, rest, hcontent, rfl, ?_⟩
  rw [close, if_pos (canClose_of_le hoffset hroom)]
  exact content_patchLength_at hcontent _

@[simp] theorem capacity_close (b : Blob) (offset : Nat) : (b.close offset).capacity = b.capacity := by
  unfold close
  split
  · exact b.capacity_patchLength offset _
  · rfl

/-- What a close at an offset does to a blob, whatever the offset points to. -/
structure CloseFrame (b : Blob) (offset : Nat) : Prop where
  /-- no access is out of range -/
  memory : b.memory.close? offset = some (b.close offset).memory
  root : (b.close offset).root = b.root
  capacity : (b.close offset).capacity = b.capacity
  /-- behind the content nothing is done -/
  behind : b.root.rawLength < offset + headerSize → b.close offset = b
  /-- inside of it, nothing changes exactly if what is read there ends with the content already -/
  inside : offset + headerSize ≤ b.root.rawLength →
    ∃ f, b.field? offset = some f ∧
      ((b.close offset).content = b.content ↔ f.rawLength = b.root.rawLength - offset)
  /-- no bytes are changed but the three of a length -/
  narrow : ∀ k : Nat, (b.close offset).content[k]? ≠ b.content[k]? → offset < k ∧ k < offset + headerSize

theorem narrow_close (hb : b.Formed) (hoffset : headerSize ≤ offset) {k : Nat}
    (hchanged : (b.close offset).content[k]? ≠ b.content[k]?) : offset < k ∧ k < offset + headerSize := by
  rcases Nat.lt_or_ge b.root.rawLength (offset + headerSize) with hend | hroom
  · rw [close_of_lt hend] at hchanged
    exact absurd rfl hchanged
  · obtain ⟨front, header, rest, hold, hfront, hnew⟩ := exists_split_close hb hoffset hroom
    -- the first byte of the header belongs to what stays in front
    rw [Header.toBytes_eq, List.cons_append, List.append_cons] at hold hnew
    rw [hold, hnew] at hchanged
    obtain ⟨hlow, hhigh⟩ := Bytes.getElem?_replaced (by rfl) hchanged
    have hthree : (Bytes.bigEndian 3 header.rawLength).length + 1 = headerSize := rfl
    rw [List.length_append, List.length_singleton, hfront] at hlow hhigh
    omega

theorem content_close_eq_iff (hb : b.Formed) (hoffset : headerSize ≤ offset)
    (hroom : offset + headerSize ≤ b.root.rawLength) :
    ∃ f, b.field? offset = some f ∧
      ((b.close offset).content = b.content ↔ f.rawLength = b.root.rawLength - offset) := by
  -- only the header at the offset is written anew, and a header is its four bytes
  obtain ⟨front, header, rest, hold, hfront, hnew⟩ := exists_split_close hb hoffset hroom
  have hsize := b.rawLength_le_size
  have hlow : headerSize ≤ b.root.rawLength - offset := by omega
  have hhigh : b.root.rawLength - offset ≤ maxLength := by
    have hroot : b.root.rawLength < 2 ^ 24 := b.root.length.isLt
    unfold maxLength
    omega
  refine ⟨⟨header, rest.take (Field.bodyRoom header)⟩, ?_, ?_⟩
  · rw [field?, if_neg (by omega), hold, List.drop_left' hfront, Field.ofBytes?_header]
  · rw [hold, hnew, List.append_cancel_left_eq, List.append_cancel_right_eq]
    constructor
    · intro hsame
      have hstated := Header.rawLength_withLength header hlow hhigh
      rw [Header.toBytes_injective hsame] at hstated
      exact hstated
    · intro hraw
      have hraw : header.rawLength = b.root.rawLength - offset := hraw
      rw [← hraw, Header.withLength_rawLength (hraw ▸ hlow)]

theorem closeFrame (hb : b.Sound) (hoffset : headerSize ≤ offset) : b.CloseFrame offset where
  memory := Buffer.close?_memory hb offset
  root := (hb.close hoffset).2
  capacity := capacity_close b offset
  behind := close_of_lt
  inside := content_close_eq_iff hb.toFormed hoffset
  narrow := fun _ => narrow_close hb.toFormed hoffset

end Blob

/-! ## Containers of the content -/

namespace Session

variable {s : Session} {i low high : Nat} {op : Operation Place}

/-- The containers that can be closed have their headers in front of `low` or from `high` on. -/
structure HandlesOutside (i low high : Nat) (s : Session) : Prop extends s.Sound where
  high_le : high ≤ (s.blob i).size
  outside : ∀ handle ∈ s.handles, handle + headerSize ≤ low ∨ high ≤ handle

/-- **What is opened later is opened behind**, whatever is done but emptying, and whichever offset is closed. -/
theorem HandlesOutside.step (s : Session) (op : Operation Place) (h : s.HandlesOutside i low high)
    (hreset : op ≠ .reset) : (s.step (.perform i op)).HandlesOutside i low high := by
  have hsound := h.toSound.step (.perform i op)
  rw [Session.step] at hsound ⊢
  split
  · next op' b hop hb =>
    simp only [hop, hb] at hsound
    have hblob := h.blobs b (List.mem_of_getElem? hb)
    have hplaces := h.toSound.places hop
    have hhigh := h.high_le
    rw [blob_eq hb] at hhigh
    refine ⟨hsound, ?_, ?_⟩
    · rw [blob_perform hb]
      exact Nat.le_trans hhigh
        (Operation.size_le_run hblob op' hplaces (Operation.ne_reset_of_resolve? hop hreset))
    · intro handle hmem
      -- an old handle is outside already; a new one stands where the content ended, which is behind
      rcases mem_handles_perform hb hmem with hold | ⟨hopening, hresult⟩
      · exact h.outside handle hold
      · have hwrite := Operation.isWrite_of_isOpening hopening
        obtain ⟨hoffset, -⟩ := Operation.run_puts hblob hwrite hplaces hresult
        rw [hoffset]
        exact .inr hhigh
  · exact h

/-- Where nothing can be closed yet, nothing that stands there will be hit. -/
theorem HandlesOutside.of_handles_eq_nil (h : s.Sound) (hhandles : s.handles = []) :
    s.HandlesOutside i 0 (s.blob i).size where
  toSound := h
  high_le := Nat.le_refl _
  outside := by
    rw [hhandles]
    exact fun _ hmem => absurd hmem List.not_mem_nil

/-- **What an operation appends is not hit later**, unless it opens a container itself. -/
theorem HandlesWithin.handlesOutside_step (h : s.HandlesWithin i) (hopening : op.isOpening = false) :
    (s.step (.perform i op)).HandlesOutside i (s.blob i).size ((s.step (.perform i op)).blob i).size where
  toSound := h.toSound.step _
  high_le := Nat.le_refl _
  outside := by
    intro handle hmem
    rw [Session.step] at hmem
    split at hmem
    · next op' b hop hb =>
      rcases mem_handles_perform hb hmem with hold | ⟨hnew, -⟩
      · exact .inl (h.within handle hold)
      · rw [(Operation.kind_of_resolve? hop).2, hopening] at hnew
        cases hnew
    · exact .inl (h.within handle hmem)

/-! ## Main statement -/

/-- **A close changes at most the length that is read at its offset, and that of a container only its own.**
    A program starts when no container is open that it could close, and never empties the blob. In between it may
    close any offset at all. Whatever offset is closed in the end, the frame of a single close holds. If it is that
    of a container which the program opened, no byte changes that was there when the program started, and none that
    was appended by any of its operations but the opening ones: in particular no byte of a payload. -/
theorem close_frame (n : Nat) (history : List Step) {s : Session} (hs : (Session.start n).run history = s)
    {refs : List Nat} (hrefs : ∀ offset ∈ refs, Placed offset) (i : Nat)
    {before after : List (Operation Place)} (hbefore : ∀ op ∈ before, op ≠ .reset)
    (hafter : ∀ op ∈ after, op ≠ .reset) {op : Operation Place} (hreset : op ≠ .reset)
    (hopening : op.isOpening = false) {opened written final : Session}
    (hopened : (s.knowing refs []).run (before.map (.perform i)) = opened)
    (hwritten : opened.step (.perform i op) = written) (hfinal : written.run (after.map (.perform i)) = final)
    {b : Blob} (hb : final.blob i = b) :
    (∀ offset, headerSize ≤ offset → b.CloseFrame offset) ∧
      ∀ handle ∈ final.handles, ∀ k : Nat, (b.close handle).content[k]? ≠ b.content[k]? →
        (s.blob i).size < k ∧ (k < (opened.blob i).size ∨ (written.blob i).size < k) := by
  have hsound : (s.knowing refs []).Sound := by
    refine (hs ▸ (Sound.start n).run history : s.Sound).knowing ?_
    rwa [List.append_nil]
  -- the containers of the program stand behind what was there
  have hstart : (s.knowing refs []).HandlesOutside i 0 (s.blob i).size :=
    .of_handles_eq_nil hsound rfl
  have hbehind := run_operations HandlesOutside.step hbefore hstart
  rw [hopened] at hbehind
  have hbehind := HandlesOutside.step opened op hbehind hreset
  rw [hwritten] at hbehind
  have hbehind := run_operations HandlesOutside.step hafter hbehind
  -- and in front of what was appended, or behind it
  have hwithin : opened.HandlesWithin i :=
    hopened ▸ run_operations HandlesWithin.step hbefore ⟨hsound, nofun⟩
  have hapart := hwithin.handlesOutside_step hopening
  rw [hwritten] at hapart
  have hapart := run_operations HandlesOutside.step hafter hapart
  rw [hfinal] at hbehind hapart
  have hblob : b.Sound := hb ▸ hbehind.toSound.blob i
  refine ⟨fun offset hoffset => Blob.closeFrame hblob hoffset, ?_⟩
  intro handle hmem k hchanged
  have hplaced := hbehind.toSound.handles handle hmem
  obtain ⟨hlow, hhigh⟩ := Blob.narrow_close hblob.toFormed hplaced.2 hchanged
  have hfirst := hbehind.outside handle hmem
  have hput := hapart.outside handle hmem
  unfold headerSize at hfirst hput hhigh
  omega

/-- A container is opened behind a table and a number is put. -/
def sampleFilled : List (Operation Place) := [.openContainer .square, .putInt 1]

/-- Behind the text that was put, a field of the table is closed, and a second container is left open. -/
def sampleLeftOpen : List (Operation Place) := [.close (.field 0), .openContainer .brace, .putBool true]

/-- The first container still states no children, so to close it does change its length. -/
theorem close_frame_sampleLeftOpen :
    ∃ s opened written final b, (Session.start 1).run sampleTable = s ∧ (∀ offset ∈ [12], Placed offset) ∧
      (∀ op ∈ sampleFilled, op ≠ .reset) ∧ (∀ op ∈ sampleLeftOpen, op ≠ .reset) ∧
      (s.knowing [12] []).run (sampleFilled.map (.perform 0)) = opened ∧
      opened.step (.perform 0 (.putString "field")) = written ∧
      written.run (sampleLeftOpen.map (.perform 0)) = final ∧ final.blob 0 = b ∧
      final.handles = [32, 56] ∧ (b.close 32).content[35]? ≠ b.content[35]? ∧
      (∀ offset, headerSize ≤ offset → b.CloseFrame offset) ∧
      ∀ handle ∈ final.handles, ∀ k : Nat, (b.close handle).content[k]? ≠ b.content[k]? →
        (s.blob 0).size < k ∧ (k < (opened.blob 0).size ∨ (written.blob 0).size < k) := by
  have hrefs : ∀ offset ∈ [12], Placed offset := by simp [Placed, headerSize]
  have hbefore : ∀ op ∈ sampleFilled, op ≠ .reset := by decide
  have hafter : ∀ op ∈ sampleLeftOpen, op ≠ .reset := by decide
  have hput : (.putString "field" : Operation Place) ≠ .reset := by decide
  refine ⟨_, _, _, _, _, rfl, hrefs, hbefore, hafter, rfl, rfl, rfl, rfl, ?_, ?_,
    close_frame 1 sampleTable rfl hrefs 0 hbefore hafter hput rfl rfl rfl rfl rfl⟩
  · decide +kernel
  · decide +kernel

/-- A number, and a container that is opened behind it. -/
def sampleOpened : List Step := [.perform 0 (.putInt 1), .perform 0 (.openContainer .square)]

/-- The blob is emptied, and a text is put that goes on where the container was. -/
def sampleRebuilt : List Step := [.perform 0 .reset, .perform 0 (.putString "aaaaaaaaaaaaaaaa")]

/-- **A close with an offset from before a reset can harm a payload.** Nothing was opened in the content, and still
    the text is another one afterwards. -/
theorem close_sampleStale :
    ∃ opened s b, (Session.start 1).run sampleOpened = opened ∧ opened.handles = [12] ∧
      opened.run sampleRebuilt = s ∧ s.blob 0 = b ∧ s.handles = opened.handles ∧
      ((Operation.close 12).run b).blob.content ≠ b.content ∧
      (b.field? 4).map Field.text = some "aaaaaaaaaaaaaaaa" ∧
      (((Operation.close 12).run b).blob.field? 4).map Field.text = some "aaaaa" := by
  refine ⟨_, _, _, rfl, ?_, rfl, rfl, ?_⟩
  · decide +kernel
  · decide +kernel

end Session

end FieldTree
