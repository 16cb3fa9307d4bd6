import FieldTree.Proofs.Json.Rollback
import FieldTree.Proofs.Preservation
import FieldTree.Proofs.Traces

/-!
# Written Fields Stay

Everything is written at the end of a blob, but for the header of a container that is closed. A container that
was opened in a blob has its header in front of a later field or behind it, never inside, so no close can reach
the bytes of a field that was put. They stay as they are until the blob is emptied.

## Architecture

- `Operation.isLasting`: what may come after a field is put.
- `Blob.Holds`: bytes that stand at some place of a blob, with one lemma for each kind of change.
- `Operation.prefix_run`: what all operations but two leave in front.
- `Session.HandlesWithin`, `Session.Keeps`: the invariants before and after a field is put.
- `Session.field?_lasting`: **the main statement.**
-/

namespace FieldTree

namespace Operation

/-- The operations that empty nothing and close nothing but a container. -/
def isLasting : Operation Place → Bool
  | reset => false
  | close (.field _) => false
  | _ => true

theorem ne_reset_of_isLasting {op : Operation Place} (h : op.isLasting = true) : op ≠ reset := by
  rintro rfl
  cases h

end Operation

/-! ## Bytes that stand in a blob -/

namespace Blob

variable {b b' : Blob} {start : Nat} {region : Bytes}

/-- The bytes `region` stand at `start`, behind the root's header. -/
def Holds (b : Blob) (start : Nat) (region : Bytes) : Prop :=
  ∃ front rest, b.body = front ++ (region ++ rest) ∧ headerSize + front.length = start

namespace Holds

theorem stop_le_size (h : b.Holds start region) (hb : b.Formed) : start + region.length ≤ b.size := by
  obtain ⟨front, rest, hbody, rfl⟩ := h
  rw [hb.size_eq, hbody, List.length_append, List.length_append]
  omega

theorem drop_content (h : b.Holds start region) : ∃ rest, b.content.drop start = region ++ rest := by
  obtain ⟨front, rest, hbody, rfl⟩ := h
  refine ⟨rest, ?_⟩
  rw [Blob.drop_content, hbody, List.drop_left]

theorem slice (h : b.Holds start region) {n : Nat} (hn : n ≤ region.length) :
    b.content.slice start (start + n) = region.take n := by
  obtain ⟨rest, hdrop⟩ := h.drop_content
  rw [Bytes.slice, List.drop_take, hdrop, Nat.add_sub_cancel_left, List.take_append_of_le_length hn]

/-- A field that ends inside the bytes is read where they stand. -/
theorem field? (h : b.Holds start region) (hb : b.Formed) {f : Field}
    (hf : ∀ rest, Field.ofBytes? (region ++ rest) = some f) : b.field? start = some f := by
  have hroom : headerSize ≤ region.length := by
    have hlength := Field.headerSize_le_of_ofBytes? (hf [])
    rwa [List.append_nil] at hlength
  have hstop := h.stop_le_size hb
  obtain ⟨rest, hdrop⟩ := h.drop_content
  rw [Blob.field?, if_neg (by omega), hdrop, hf]

theorem of_prefix (h : b.Holds start region) (hgrown : b.body <+: b'.body) : b'.Holds start region := by
  obtain ⟨front, rest, hbody, hstart⟩ := h
  obtain ⟨more, hmore⟩ := hgrown
  refine ⟨front, rest ++ more, ?_, hstart⟩
  rw [← hmore, hbody, List.append_assoc, List.append_assoc]

/-- A patch of four bytes that lies in front of the bytes or behind them. -/
theorem patch (h : b.Holds start region) (hb : b.Formed) {offset : Nat} (hoffset : headerSize ≤ offset)
    {p : Bytes} (hp : p.length = headerSize)
    (houtside : offset + headerSize ≤ start ∨ start + region.length ≤ offset) :
    (b.patch offset p).Holds start region := by
  obtain ⟨front, rest, hbody, rfl⟩ := h
  obtain ⟨i, rfl⟩ := Nat.exists_eq_add_of_le hoffset
  have hpatched := body_of_content (content_patch_behind hb i p)
  rw [hbody] at hpatched
  rcases houtside with hbefore | hbehind
  case inl =>
    have hfront : i + p.length ≤ front.length := by omega
    refine ⟨front.patch i p, rest, ?_, by rw [Bytes.length_patch]⟩
    rw [hpatched, Bytes.patch_append_left hfront]
  case inr =>
    obtain ⟨j, rfl⟩ : ∃ j, i = front.length + (region.length + j) :=
      ⟨i - (front.length + region.length), by omega⟩
    refine ⟨front, rest.patch j p, ?_, rfl⟩
    rw [hpatched, Bytes.patch_append_right, Bytes.patch_append_right]

/-- Closing a container whose header lies in front of the bytes or behind them. -/
theorem close (h : b.Holds start region) (hb : b.Formed) {offset : Nat} (hoffset : headerSize ≤ offset)
    (houtside : offset + headerSize ≤ start ∨ start + region.length ≤ offset) :
    (b.close offset).Holds start region := by
  unfold Blob.close patchLength
  split
  · split
    · exact h
    · exact h.patch hb hoffset (Header.length_toBytes _) houtside
  · exact h

end Holds

/-- What was appended to the body stands where the content ended. -/
theorem holds_of_body_eq (hb : b.Formed) (hbody : b'.body = b.body ++ region) : b'.Holds b.size region :=
  ⟨b.body, [], by rw [hbody, List.append_nil], hb.size_eq.symm⟩

theorem size_le_of_prefix (hb : b.Formed) (hb' : b'.Formed) (hgrown : b.body <+: b'.body) :
    b.size ≤ b'.size := by
  rw [hb.size_eq, hb'.size_eq]
  exact Nat.add_le_add_left hgrown.length_le headerSize

/-- A text that is appended leaves what is in front of it, also when it is removed again. -/
theorem prefix_putJson (hb : b.Sound) (text : String) : b.body <+: (b.putJson text).blob.body := by
  cases hfault : (b.putJson text).fault? with
  | some fault =>
    obtain ⟨-, hbody, -⟩ := putJson_of_fault hb hfault
    exact hbody ▸ List.prefix_refl _
  | none =>
    -- without a fault, the blob is what was written
    have hwritten : (b.putJson text).blob = Json.written b text := by
      unfold putJson Json.decode at hfault ⊢
      dsimp only at hfault ⊢
      split at hfault
      · rfl
      · cases hfault
    obtain ⟨outer, hfilling⟩ := Json.exists_filling_written hb text
    rw [hwritten]
    exact hfilling.front

end Blob

/-! ## Operations -/

namespace Operation

variable {b : Blob}

/-- **All but closing and emptying leaves what a blob holds in front of what is new.** -/
theorem prefix_run (hb : b.Sound) (op : Operation Nat) (hplaces : ∀ place ∈ op.places, headerSize ≤ place)
    (hclose : ∀ offset, op ≠ close offset) (hreset : op ≠ reset) : b.body <+: (op.run b).blob.body := by
  cases hwrite : op.isWrite with
  | true =>
    have hwrote := run_wrote hb hwrite hplaces
    -- a write that is not refused appends an item or a copy of a field
    generalize op.run b = o at hwrote ⊢
    cases hwrote with
    | refused => exact List.prefix_refl _
    | item item journal hfits =>
      rw [(Blob.append_extends hb.toFormed item hfits).body_eq]
      exact List.prefix_append _ _
    | field f journal hroom =>
      rw [Blob.body_copyOver hb hroom]
      exact List.prefix_append _ _
  | false =>
    cases op with
    | close offset => exact absurd rfl (hclose offset)
    | putJson text =>
      rw [run]
      split
      · exact Blob.prefix_putJson hb text
      · exact Blob.prefix_putJson hb text
    | resize n =>
      rw [run, Blob.resize]
      split_ifs
      · exact List.prefix_refl _
      · exact List.prefix_refl _
    | reset => exact absurd rfl hreset
    | putScalar | putString | putInt | putBool | putReal | putDouble | putSingle | putField | putCopy
    | openContainer => cases hwrite

theorem size_le_run (hb : b.Sound) (op : Operation Nat) (hplaces : ∀ place ∈ op.places, headerSize ≤ place)
    (hreset : op ≠ reset) : b.size ≤ (op.run b).blob.size := by
  by_cases hclose : ∃ offset, op = close offset
  case pos =>
    obtain ⟨offset, rfl⟩ := hclose
    obtain ⟨-, hroot⟩ := hb.close (hplaces offset List.mem_cons_self)
    have hsize : (b.close offset).size = b.size := by rw [Blob.size, hroot, Blob.size]
    exact Nat.le_of_eq hsize.symm
  case neg =>
    have hgrown := prefix_run hb op hplaces (not_exists.mp hclose) hreset
    obtain ⟨hafter, -⟩ := run_sound hb op (behind_of_places hplaces)
    exact Blob.size_le_of_prefix hb.toFormed hafter.toFormed hgrown

end Operation

/-! ## Programs on one blob -/

namespace Operation

variable {Place : Type} {offset? : Place → Option Nat} {op : Operation Place} {op' : Operation Nat}

/-- Looking a place up does not change what an operation is. -/
theorem kind_of_resolve? (h : op.resolve? offset? = some op') :
    op'.isWrite = op.isWrite ∧ op'.isOpening = op.isOpening := by
  cases op with
  | close place | putCopy place =>
    obtain ⟨offset, -, rfl⟩ := Option.map_eq_some_iff.mp h
    exact ⟨rfl, rfl⟩
  | putScalar | putString | putInt | putBool | putReal | putDouble | putSingle | putField | openContainer
  | putJson | resize | reset =>
    cases h
    exact ⟨rfl, rfl⟩

theorem ne_reset_of_resolve? (h : op.resolve? offset? = some op') (hreset : op ≠ reset) : op' ≠ reset := by
  rintro rfl
  cases op with
  | close place | putCopy place =>
    obtain ⟨offset, -, hop⟩ := Option.map_eq_some_iff.mp h
    cases hop
  | reset => exact hreset rfl
  | putScalar | putString | putInt | putBool | putReal | putDouble | putSingle | putField | openContainer
  | putJson | resize => cases h

theorem isWrite_of_isOpening (h : op.isOpening = true) : op.isWrite = true := by
  cases op with
  | openContainer => rfl
  | putScalar | putString | putInt | putBool | putReal | putDouble | putSingle | putField | putCopy | close
  | putJson | resize | reset => cases h

end Operation

namespace Session

variable {s : Session} {i : Nat} {b : Blob} {op : Operation Place} {op' : Operation Nat}

/-- What lasts closes nothing but containers that were opened. -/
theorem mem_handles_of_isLasting (hlasting : op.isLasting = true) {offset : Nat}
    (hop : op.resolve? s.offset? = some (.close offset)) : offset ∈ s.handles := by
  cases op with
  | close place =>
    cases place with
    | field k => cases hlasting
    | container k =>
      obtain ⟨_, hoffset, hclose⟩ := Option.map_eq_some_iff.mp hop
      cases hclose
      exact List.mem_of_getElem? hoffset
  | putCopy place =>
    obtain ⟨_, -, hcopy⟩ := Option.map_eq_some_iff.mp hop
    cases hcopy
  | putScalar | putString | putInt | putBool | putReal | putDouble | putSingle | putField | openContainer
  | putJson | resize | reset => cases hop

theorem blob_perform (hb : s.blobs[i]? = some b) (op : Operation Nat) :
    (s.perform i op).1.blob i = (op.run b).blob := by
  have hi := (List.getElem?_eq_some_iff.mp hb).1
  have hset : (s.setBlob i (op.run b).blob).blob i = (op.run b).blob := by
    apply blob_eq
    exact List.getElem?_set_self hi
  rw [perform, blob_eq hb]
  split
  · exact hset
  · exact hset

/-- A new handle is that of a container that was opened. -/
theorem mem_handles_perform (hb : s.blobs[i]? = some b) {handle : Nat}
    (hmem : handle ∈ (s.perform i op').1.handles) :
    handle ∈ s.handles ∨ op'.isOpening = true ∧ (op'.run b).result = .ok (some handle) := by
  simp only [perform, blob_eq hb] at hmem
  split at hmem
  · next offset hresult =>
    cases hopening : op'.isOpening with
    | false =>
      simp only [hopening, Bool.false_eq_true, if_false] at hmem
      exact .inl hmem
    | true =>
      simp only [hopening, if_true] at hmem
      rcases List.mem_append.mp hmem with hold | hnew
      · exact .inl hold
      · rw [List.mem_singleton.mp hnew]
        exact .inr ⟨rfl, hresult⟩
  · exact .inl hmem

/-- What every operation of a kind keeps is kept by a program of them. -/
theorem run_operations {P : Session → Prop} {Kind : Operation Place → Prop}
    (hstep : ∀ s op, P s → Kind op → P (s.step (.perform i op)))
    {program : List (Operation Place)} (hprogram : ∀ op ∈ program, Kind op) (h : P s) :
    P (s.run (program.map (.perform i))) := by
  induction program generalizing s with
  | nil => exact h
  | cons op rest ih =>
    obtain ⟨hop, hrest⟩ := List.forall_mem_cons.mp hprogram
    exact ih hrest (hstep s op h hop)

/-! ### Before a field is put -/

/-- The containers that were opened have their headers inside the content. -/
structure HandlesWithin (i : Nat) (s : Session) : Prop extends s.Sound where
  within : ∀ handle ∈ s.handles, handle + headerSize ≤ (s.blob i).size

/-- **They stay there**, whatever is done but emptying, and whichever offset is closed. -/
theorem HandlesWithin.step (s : Session) (op : Operation Place) (h : s.HandlesWithin i)
    (hreset : op ≠ .reset) : (s.step (.perform i op)).HandlesWithin i where
  toSound := h.toSound.step _
  within := by
    rw [Session.step]
    split
    · next op' b hop hb =>
      have hsound := h.blobs b (List.mem_of_getElem? hb)
      have hplaces := h.toSound.places hop
      obtain ⟨hafter, -⟩ := Operation.run_sound hsound op' (Operation.behind_of_places hplaces)
      have hgrown := Operation.size_le_run hsound op' hplaces (Operation.ne_reset_of_resolve? hop hreset)
      intro handle hmem
      rw [blob_perform hb]
      -- an old handle stays inside, since the content does not get shorter; a new one starts a field that was put
      rcases mem_handles_perform hb hmem with hold | ⟨hopening, hresult⟩
      · have hwithin := h.within handle hold
        rw [blob_eq hb] at hwithin
        exact Nat.le_trans hwithin hgrown
      · have hwrite := Operation.isWrite_of_isOpening hopening
        obtain ⟨rfl, region, f, hputs⟩ := Operation.run_puts hsound hwrite hplaces hresult
        exact hputs.stop_le hsound.toFormed hafter.toFormed
    · exact h.within

/-! ### After a field was put -/

/-- The bytes `region` stand at `start`, and no container that can be closed has its header inside of them. -/
structure Keeps (i start : Nat) (region : Bytes) (s : Session) : Prop extends s.Sound where
  holds : (s.blob i).Holds start region
  outside : ∀ handle ∈ s.handles, handle + headerSize ≤ start ∨ start + region.length ≤ handle

variable {start : Nat} {region : Bytes}

/-- **The bytes stay**, whatever is written behind them and whichever container is closed. -/
theorem Keeps.step (s : Session) (op : Operation Place) (h : s.Keeps i start region)
    (hlasting : op.isLasting = true) : (s.step (.perform i op)).Keeps i start region := by
  have hsound := h.toSound.step (.perform i op)
  rw [Session.step] at hsound ⊢
  split
  · next op' b hop hb =>
    simp only [hop, hb] at hsound
    have hblob := h.blobs b (List.mem_of_getElem? hb)
    have hplaces := h.toSound.places hop
    have hreset := Operation.ne_reset_of_resolve? hop (Operation.ne_reset_of_isLasting hlasting)
    have hholds := h.holds
    rw [blob_eq hb] at hholds
    refine ⟨hsound, ?_, ?_⟩
    · rw [blob_perform hb]
      -- to close a container changes bytes at its handle, and that lies outside
      by_cases hclose : ∃ offset, op' = .close offset
      case pos =>
        obtain ⟨offset, rfl⟩ := hclose
        have houtside := h.outside offset (mem_handles_of_isLasting hlasting hop)
        exact hholds.close hblob.toFormed (hplaces offset List.mem_cons_self) houtside
      case neg =>
        exact hholds.of_prefix (Operation.prefix_run hblob op' hplaces (not_exists.mp hclose) hreset)
    · intro handle hmem
      rcases mem_handles_perform hb hmem with hold | ⟨hopening, hresult⟩
      · exact h.outside handle hold
      · -- what is opened now starts where the content ends
        have hwrite := Operation.isWrite_of_isOpening hopening
        obtain ⟨hoffset, -⟩ := Operation.run_puts hblob hwrite hplaces hresult
        rw [hoffset]
        exact .inr (hholds.stop_le_size hblob.toFormed)
  · exact h

/-- **A field that is put stands in bytes that stay**, since every container was opened in front of it. -/
theorem HandlesWithin.keeps_put (h : s.HandlesWithin i) (hwrite : op.isWrite = true)
    (hopening : op.isOpening = false) {r : Nat} (hanswer : s.answer? (.perform i op) = some (.ok (some r))) :
    ∃ region f, (s.step (.perform i op)).Keeps i r region ∧ f.paddedLength ≤ region.length ∧
      ∀ rest, Field.ofBytes? (region ++ rest) = some f := by
  have hsound := h.toSound.step (.perform i op)
  simp only [answer?] at hanswer
  split at hanswer
  · next op' b hop hb =>
    simp only [Session.step, hop, hb] at hsound ⊢
    have hresult := Option.some.inj hanswer
    have hblob := h.blobs b (List.mem_of_getElem? hb)
    obtain ⟨hwrite', hopening'⟩ := Operation.kind_of_resolve? hop
    obtain ⟨hr, region, f, hputs⟩ :=
      Operation.run_puts hblob (hwrite'.trans hwrite) (h.toSound.places hop) hresult
    refine ⟨region, f, ⟨hsound, ?_, ?_⟩, hputs.fits, hputs.read⟩
    -- the bytes end the content, and every handle is of a container in front of them
    · rw [blob_perform hb, hr]
      exact Blob.holds_of_body_eq hblob.toFormed hputs.body_eq
    · intro handle hmem
      rcases mem_handles_perform hb hmem with hold | ⟨hnew, -⟩
      · have hle := h.within handle hold
        rw [blob_eq hb, ← hr] at hle
        exact .inl hle
      · rw [hopening', hopening] at hnew
        cases hnew
  · cases hanswer

/-! ## Main statement -/

/-- **A field that was put never changes** while the blob is not emptied: whatever is appended, refused or
    removed again, however the blob grows, and in whatever order the containers that were opened in it are
    closed, once or many times. Before the field was put, any offset at all may have been closed. -/
theorem field?_lasting (n : Nat) (history : List Step) {s : Session} (hs : (Session.start n).run history = s)
    {refs : List Nat} (hrefs : ∀ offset ∈ refs, Placed offset) (i : Nat)
    {before after : List (Operation Place)} (hbefore : ∀ op ∈ before, op ≠ .reset)
    (hafter : ∀ op ∈ after, op.isLasting = true) {op : Operation Place} (hwrite : op.isWrite = true)
    (hopening : op.isOpening = false) {opened written final : Session}
    (hopened : (s.knowing refs []).run (before.map (.perform i)) = opened)
    (hwritten : opened.step (.perform i op) = written) (hfinal : written.run (after.map (.perform i)) = final)
    {r : Nat} (hanswer : opened.answer? (.perform i op) = some (.ok (some r))) :
    ∃ f, (written.blob i).field? r = some f ∧ (final.blob i).field? r = some f ∧
      r + f.paddedLength ≤ (written.blob i).size ∧
      (final.blob i).content.slice r (r + f.paddedLength) =
        (written.blob i).content.slice r (r + f.paddedLength) := by
  have hknowing : (s.knowing refs []).HandlesWithin i := by
    refine ⟨(hs ▸ (Sound.start n).run history).knowing ?_, nofun⟩
    rwa [List.append_nil]
  have hwithin := run_operations HandlesWithin.step hbefore hknowing
  rw [hopened] at hwithin
  obtain ⟨region, f, hkeeps, hfits, hread⟩ := hwithin.keeps_put hwrite hopening hanswer
  rw [hwritten] at hkeeps
  have hlast := run_operations Keeps.step hafter hkeeps
  rw [hfinal] at hlast
  have hformed := (hkeeps.toSound.blob i).toFormed
  have hformed' := (hlast.toSound.blob i).toFormed
  refine ⟨f, hkeeps.holds.field? hformed hread, hlast.holds.field? hformed' hread, ?_, ?_⟩
  · exact Nat.le_trans (Nat.add_le_add_left hfits r) (hkeeps.holds.stop_le_size hformed)
  · rw [hkeeps.holds.slice hfits, hlast.holds.slice hfits]

/-- A blob whose root is a table. -/
def sampleTable : List Step := [.make 0 (.json {} "\x7b\"k\":[1,2]\x7d")]

/-- A container is opened in it, one that has long been complete is closed again, and a number is put. -/
def sampleBefore : List (Operation Place) := [.openContainer .square, .close (.field 0), .putInt 300]

/-- The open container is closed again and again, a text fails, another one grows the blob, and a container that
    is opened later is closed first. -/
def sampleAfter : List (Operation Place) :=
  [.putBool true, .close (.container 0), .putJson "[1,[2", .close (.container 0), .resize 400,
    .openContainer .brace, .putCopy (.field 2), .close (.container 1), .close (.container 0), .putJson "[1,[2]]"]

theorem field?_lasting_sampleAfter :
    ∃ s opened written final, (Session.start 1).run sampleTable = s ∧ (∀ offset ∈ [12], Placed offset) ∧
      (∀ op ∈ sampleBefore, op ≠ .reset) ∧ (∀ op ∈ sampleAfter, op.isLasting = true) ∧
      (s.knowing [12] []).run (sampleBefore.map (.perform 0)) = opened ∧
      opened.step (.perform 0 (.putString "field")) = written ∧
      written.run (sampleAfter.map (.perform 0)) = final ∧
      opened.answer? (.perform 0 (.putString "field")) = some (.ok (some 44)) ∧
      ∃ f, (written.blob 0).field? 44 = some f ∧ (final.blob 0).field? 44 = some f ∧
        44 + f.paddedLength ≤ (written.blob 0).size ∧
        (final.blob 0).content.slice 44 (44 + f.paddedLength) =
          (written.blob 0).content.slice 44 (44 + f.paddedLength) := by
  have hrefs : ∀ offset ∈ [12], Placed offset := by simp [Placed, headerSize]
  have hbefore : ∀ op ∈ sampleBefore, op ≠ .reset := by decide
  have hafter : ∀ op ∈ sampleAfter, op.isLasting = true := by decide
  have hoffset : (((((Session.start 1).run sampleTable).knowing [12] []).run
      (sampleBefore.map (.perform 0))).answer? (.perform 0 (.putString "field"))).map Except.toOption =
        some (some (some 44)) := by decide +kernel
  obtain ⟨_ | _, hanswer, hok⟩ := Option.map_eq_some_iff.mp hoffset
  · cases hok
  · cases hok
    exact ⟨_, _, _, _, rfl, hrefs, hbefore, hafter, rfl, rfl, rfl, hanswer,
      field?_lasting 1 sampleTable rfl hrefs 0 hbefore hafter rfl rfl rfl rfl rfl hanswer⟩

end Session

end FieldTree
