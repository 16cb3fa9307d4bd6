import FieldTree.Proofs.Runs
import FieldTree.Proofs.Writes

/-!
# What Changes Preserve

All that is ever done to a blob is made of six changes. A property that each of them keeps is kept by every
text, however far it gets, by every operation, and by every step of a program.

## Architecture

- `Blob.Preserved`: a property that the six changes of sound blobs keep.
- `Blob.Preserved.decode`, `Blob.Preserved.run`, `Session.blobs_step`: texts, operations and steps keep it.
- `Blob.preserved_of_config`: no change touches the configuration.
- `Blob.Exact`, `Blob.preserved_exact`: a root without padding stays one.
- `Blob.Invariant`, `Session.blob_run`: a property that is also there at the start holds of all blobs, always.
-/

namespace FieldTree

namespace Blob

/-- A property that every change of a sound blob keeps. -/
structure Preserved (P : Blob → Prop) : Prop where
  append : ∀ {b : Blob} {item : Item}, b.Sound → P b → b.size + item.toBytes.length ≤ b.config.limit →
    P (b.append item)
  patch : ∀ {b : Blob} {offset : Nat} (p : Bytes), b.Sound → P b → headerSize ≤ offset →
    P (b.patch offset p)
  withRootType : ∀ {b : Blob} {t : FieldType}, b.Sound → P b → t.isContainer = true → P (b.withRootType t)
  truncateTo : ∀ {b : Blob} {n : Nat}, b.Sound → P b → headerSize ≤ n → 4 ∣ n → n < b.size →
    P (b.truncateTo n)
  reserve : ∀ {b : Blob} {n : Nat}, b.Sound → P b → n ≤ b.config.limit → P (b.reserve n)
  reset : ∀ {b : Blob}, b.Sound → P b → P b.reset

namespace Preserved

variable {P : Blob → Prop} {b : Blob}

theorem clearPadding (hP : Preserved P) (hb : b.Sound) (h : P b) {offset : Nat} (hoffset : headerSize ≤ offset) :
    P (b.clearPadding offset) := by
  unfold Blob.clearPadding
  split
  · exact h
  · exact hP.patch _ hb h (Nat.le_trans hoffset (Nat.le_add_right _ _))

theorem close (hP : Preserved P) (hb : b.Sound) (h : P b) {offset : Nat} (hoffset : headerSize ≤ offset) :
    P (b.close offset) := by
  unfold Blob.close Blob.patchLength
  split
  · split
    · exact h
    · exact hP.patch _ hb h hoffset
  · exact h

theorem copyOver (hP : Preserved P) (hb : b.Sound) (h : P b) {f : Field}
    (hroom : b.refusal? f.header.dataLength = none) (copy : Bytes) : P (b.copyOver f copy) := by
  have hbehind := hb.toFormed.headerSize_le_size
  have hroomy := hb.appendRoom hroom
  have hfits : b.size + (Item.toBytes ⟨f.type, .zeros f.header.dataLength⟩).length ≤ b.config.limit := by
    rw [← stopOf_eq, Bytes.length_zeros]
    exact refusal?_eq_none_iff.mp hroom
  apply hP.clearPadding (hroomy.patch hbehind copy) _ hbehind
  exact hP.patch copy hroomy (hP.append hb h hfits) hbehind

/-! ## Texts -/

open Json

/-- **Writing tokens keeps the property**, however far it gets. -/
theorem writeTokens (hP : Preserved P) (fillsRoot : Bool) (tokens : List (Token × Position))
    {outer : OpenFields} (hb : b.Sound) (h : P b) (houter : outer.Behind) :
    P (Json.writeTokens fillsRoot outer b tokens).blob := by
  -- induction on the tokens: each is a closing, the root itself, a refusal, or a field
  induction tokens generalizing outer b with
  | nil => exact h
  | cons entry rest ih =>
    obtain ⟨token, refusal⟩ := entry
    rw [Json.writeTokens]
    split
    · apply ih (closeInnermost_sound hb houter) _ houter.tail
      unfold closeInnermost
      split
      · exact hP.close hb h (houter _ List.mem_cons_self)
      · exact h
    · next item hitem =>
      split
      · next hroot =>
        have hcontainer := Token.isContainer_item hitem (Bool.and_eq_true_iff.mp hroot).2
        exact ih (hb.withRootType hcontainer) (hP.withRootType hb h hcontainer) OpenFields.behind_root
      · split
        · exact h
        · next hroom =>
          have hfits : b.size + item.toBytes.length ≤ b.config.limit := by
            rw [← stopOf_eq]
            exact refusal?_eq_none_iff.mp hroom
          exact ih (hb.append hfits) (hP.append hb h hfits) (houter.push hb.toFormed.headerSize_le_size token)

/-- **Decoding keeps the property**, also when what was written is removed again. -/
theorem decode (hP : Preserved P) (fillsRoot : Bool) (hb : b.Sound) (h : P b) (text : String) :
    P (Json.decode fillsRoot b text).blob := by
  have hsound := writeTokens_sound fillsRoot (Scan.ofText text).tokens hb OpenFields.behind_nil
  have hwritten := hP.writeTokens fillsRoot (Scan.ofText text).tokens hb h OpenFields.behind_nil
  have hlow := hb.toFormed.headerSize_le_size
  have htype : b.head.type.isContainer = true := by
    rw [hb.toFormed.head_eq]
    exact hb.isContainer_root
  unfold Json.decode
  dsimp only
  split
  · exact hwritten
  · apply hP.withRootType (hsound.truncateTo hlow b.dvd_size) _ htype
    rcases Nat.lt_or_ge b.size (Json.writeTokens fillsRoot [] b (Scan.ofText text).tokens).blob.size with
      hlt | hle
    · exact hP.truncateTo hsound hwritten hlow b.dvd_size hlt
    · rw [Blob.truncateTo, if_pos hle]
      exact hwritten

/-! ## Operations -/

/-- **Every operation keeps the property.** -/
theorem run (hP : Preserved P) (hb : b.Sound) (h : P b) (op : Operation Nat)
    (hplaces : ∀ place ∈ op.places, headerSize ≤ place) : P (op.run b).blob := by
  cases hwrite : op.isWrite with
  | true =>
    have hwrote := Operation.run_wrote hb hwrite hplaces
    -- a write that is not refused appends an item or a copy of a field
    generalize op.run b = o at hwrote ⊢
    cases hwrote with
    | refused => exact h
    | item item journal hfits => exact hP.append hb h hfits
    | field f journal hroom => exact hP.copyOver hb h hroom _
  | false =>
    -- what is left closes a container, decodes, makes room, or empties the blob
    cases op with
    | close container => exact hP.close hb h (hplaces container List.mem_cons_self)
    | putJson text =>
      rw [Operation.run]
      split
      · exact hP.decode false hb h text
      · exact hP.decode false hb h text
    | resize n =>
      rw [Operation.run, Blob.resize]
      split_ifs with hrefused
      · exact h
      · exact hP.reserve hb h (Nat.not_lt.mp fun hlt => hrefused (.inr hlt))
    | reset => exact hP.reset hb h
    | putScalar | putString | putInt | putBool | putReal | putDouble | putSingle | putField | putCopy
    | openContainer => cases hwrite

end Preserved

/-! ## The configuration -/

/-- **No change touches the configuration.** -/
theorem preserved_of_config (Q : Config → Prop) : Preserved fun b => Q b.config where
  append := fun _ h _ => (config_append _ _).symm ▸ h
  patch := fun _ _ h _ => (config_patch _ _ _).symm ▸ h
  withRootType := fun _ h _ => (config_withRootType _ _).symm ▸ h
  truncateTo := fun _ h _ _ _ => (config_truncateTo _ _).symm ▸ h
  reserve := fun _ h _ => h
  reset := fun _ h => h

theorem preserved_config (c : Config) : Preserved fun b => b.config = c := preserved_of_config (· = c)

/-! ## Roots without padding -/

/-- The root's length needs no padding. -/
def Exact (b : Blob) : Prop := b.root.rawLength = b.size

theorem exact_of_content {b : Blob} (hb : b.content = emptyContent) : b.Exact := by
  have e : b.content = (Header.new .array headerSize).toBytes ++ [] := hb
  unfold Exact
  rw [size, root_of_content e]
  rfl

/-- **A root without padding stays one.** -/
theorem preserved_exact : Preserved Exact where
  append := fun hb _ hfits => (append_extends hb.toFormed _ hfits).aligned hb.toFormed
  patch := by
    intro b offset p hb h hoffset
    unfold Exact
    rw [size, (formed_patch hb.toFormed hoffset p).2]
    exact h
  withRootType := by
    intro b t hb h ht
    unfold Exact
    rw [size, root_of_content (content_withRootType hb.toFormed t)]
    exact h
  truncateTo := by
    intro b n hb _ hlow hdvd hlt
    unfold Exact
    rw [rawLength_truncateTo hb.toFormed hlow hlt, size_truncateTo hb.toFormed hlow hdvd hlt]
  reserve := fun _ h _ => h
  reset := fun _ _ => exact_of_content (content_reset _)

/-! ## Origins -/

/-- A property that every change keeps, and that a blob has before anything is written to it. -/
structure Invariant (P : Blob → Prop) : Prop extends Preserved P where
  new : P .new
  create : ∀ {config : Config} {b : Blob}, create config = .ok b → P b
  adopt : ∀ {config : Config} {data : Bytes} {b : Blob}, adopt config data = .ok b → P b

/-- **Whatever is made has the property.** -/
theorem Invariant.make {P : Blob → Prop} (hP : Invariant P) {origin : Origin} {b : Blob}
    (h : origin.make.1 = .ok b) : P b := by
  cases origin with
  | new =>
    cases h
    exact hP.new
  | create config => exact hP.create h
  | adopt config data =>
    simp only [Origin.make] at h
    split at h
    · cases h
    · next hadopt =>
      cases h
      exact hP.adopt hadopt
  | json config text =>
    simp only [Origin.make, ofJson] at h
    split at h
    · cases h
    · next hcreate =>
      split at h
      · cases h
      · cases h
        -- the text is written to a blob that was just created
        exact hP.decode true (sound_create hcreate) (hP.create hcreate) text

end Blob

/-! ## Steps -/

namespace Session

variable {P : Blob → Prop} {s : Session}

/-- The places that a step mentions lie behind the root's header. -/
theorem Sound.places (h : s.Sound) {op : Operation Place} {op' : Operation Nat}
    (hop : op.resolve? s.offset? = some op') : ∀ place ∈ op'.places, headerSize ≤ place := by
  cases op with
  | close place | putCopy place =>
    obtain ⟨offset, hoffset, rfl⟩ := Option.map_eq_some_iff.mp hop
    intro place hmem
    rw [List.mem_singleton.mp hmem]
    exact (h.of_offset? hoffset).2
  | putScalar | putString | putInt | putBool | putReal | putDouble | putSingle | putField | openContainer
  | putJson | resize | reset =>
    cases hop
    intro place hmem
    cases hmem

theorem mem_setBlob (h : ∀ b ∈ s.blobs, P b) {i : Nat} {b : Blob} (hb : P b) :
    ∀ b' ∈ (s.setBlob i b).blobs, P b' := by
  intro b' hb'
  rcases List.mem_or_eq_of_mem_set hb' with hmem | rfl
  · exact h b' hmem
  · exact hb

/-- **A step keeps a property of all blobs**, if a blob that it makes has that property. -/
theorem blobs_step (hP : Blob.Preserved P) (hs : s.Sound) (h : ∀ b ∈ s.blobs, P b) (st : Step)
    (hmake : ∀ i origin b, st = .make i origin → origin.make.1 = .ok b → P b) :
    ∀ b ∈ (s.step st).blobs, P b := by
  -- one blob is set at most: what is made, a clone, or the blob of the operation
  cases st with
  | make i origin =>
    rw [step, make]
    split
    · next b journal hb => exact mem_setBlob h (hmake i origin b rfl (congrArg Prod.fst hb))
    · exact h
  | clone source target =>
    rw [step]
    split
    · exact h
    · next b hb => exact mem_setBlob h (h b (List.mem_of_getElem? hb))
  | perform i op =>
    rw [step]
    split
    · next op' b hop hb =>
      have hmem := List.mem_of_getElem? hb
      have hset := mem_setBlob (i := i) h (hP.run (hs.blobs b hmem) (h b hmem) op' (hs.places hop))
      rw [perform, blob_eq hb]
      split
      · exact hset
      · exact hset
    · exact h

/-- **An invariant of blobs holds of all blobs that a program reaches.** -/
theorem blobs_run (hP : Blob.Invariant P) (hs : s.Sound) (h : ∀ b ∈ s.blobs, P b) (program : List Step) :
    ∀ b ∈ (s.run program).blobs, P b := by
  induction program generalizing s with
  | nil => exact h
  | cons st rest ih =>
    exact ih (hs.step st) (blobs_step hP.toPreserved hs h st fun _ _ _ _ hmake => hP.make hmake)

theorem blob_run (hP : Blob.Invariant P) (n : Nat) (program : List Step) (i : Nat) :
    P (((start n).run program).blob i) := by
  have hstart : ∀ b ∈ (start n).blobs, P b := by
    intro b hb
    rw [List.eq_of_mem_replicate hb]
    exact hP.new
  have hall := blobs_run hP (.start n) hstart program
  unfold blob
  cases hb : ((start n).run program).blobs[i]? with
  | none => exact hP.new
  | some b => exact hall b (List.mem_of_getElem? hb)

end Session

end FieldTree
