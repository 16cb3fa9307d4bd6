import FieldTree.Proofs.Traces
import Mathlib.Data.Option.Defs

/-!
# Independence of the History

A blob that was used and emptied holds more memory than a new one, and remembers nothing else. This module
shows that no operation looks at what is allocated: from blobs that differ in that alone every operation gives
the same result, and blobs that again differ in that alone.

## Architecture

- `Blob.Alike`: blobs that differ only in what is allocated, with one lemma for each change.
- `Json.Decoded.Alike`, `Json.writeTokens_alike`: texts, however far they get.
- `Operation.run_alike`: every operation.
- `Session.Alike`: the same of all blobs of a session, with `Session.Alike.step` and `Session.Alike.trace_eq`.
- `Session.trace_reset`: **the main statement**, an emptied blob against a new one.
-/

namespace FieldTree

namespace Blob

/-- Blobs that differ in nothing but what is allocated for them, now and at first. -/
structure Alike (b b' : Blob) : Prop where
  storage : b.storage = b'.storage
  maxSize : b.config.maxSize = b'.config.maxSize

namespace Alike

variable {b b' b'' : Blob}

theorem refl (b : Blob) : b.Alike b := ⟨rfl, rfl⟩

theorem trans (h : b.Alike b') (h' : b'.Alike b'') : b.Alike b'' :=
  ⟨h.storage.trans h'.storage, h.maxSize.trans h'.maxSize⟩

/-! ## What is read -/

theorem content (h : b.Alike b') : b.content = b'.content := congrArg Storage.toList h.storage

theorem root (h : b.Alike b') : b.root = b'.root := by simp only [Blob.root, h.storage]

theorem size (h : b.Alike b') : b.size = b'.size := by simp only [Blob.size, h.root]

theorem limit (h : b.Alike b') : b.config.limit = b'.config.limit := by
  simp only [Config.limit, h.maxSize]

theorem stopOf (h : b.Alike b') (n : Nat) : b.stopOf n = b'.stopOf n := by simp only [Blob.stopOf, h.size]

theorem refusal? (h : b.Alike b') (n : Nat) : b.refusal? n = b'.refusal? n := by
  simp only [Blob.refusal?, h.stopOf, h.limit]

theorem field? (h : b.Alike b') (offset : Nat) : b.field? offset = b'.field? offset := by
  simp only [Blob.field?, h.size, h.content]

theorem canClose (h : b.Alike b') (offset : Nat) : b.canClose offset = b'.canClose offset := by
  simp only [Blob.canClose, h.root]

theorem head (h : b.Alike b') : b.head = b'.head := by simp only [Blob.head, h.content]

/-! ## What is changed -/

theorem reserve (h : b.Alike b') (n : Nat) : (b.reserve n).Alike (b'.reserve n) := ⟨h.storage, h.maxSize⟩

theorem reset (h : b.Alike b') : b.reset.Alike b'.reset := ⟨rfl, h.maxSize⟩

theorem patch (h : b.Alike b') (offset : Nat) (p : Bytes) : (b.patch offset p).Alike (b'.patch offset p) where
  storage := by simp only [Blob.patch, h.storage]
  maxSize := h.maxSize

theorem patchLength (h : b.Alike b') (offset n : Nat) :
    (b.patchLength offset n).Alike (b'.patchLength offset n) := by
  unfold Blob.patchLength
  rw [h.storage]
  split
  · exact h
  · exact h.patch offset _

theorem clearPadding (h : b.Alike b') (offset : Nat) :
    (b.clearPadding offset).Alike (b'.clearPadding offset) := by
  unfold Blob.clearPadding
  rw [h.storage]
  split
  · exact h
  · exact h.patch _ _

theorem withRootType (h : b.Alike b') (t : FieldType) : (b.withRootType t).Alike (b'.withRootType t) := by
  unfold Blob.withRootType
  rw [h.root]
  exact h.patch 0 _

theorem truncateTo (h : b.Alike b') (n : Nat) : (b.truncateTo n).Alike (b'.truncateTo n) := by
  unfold Blob.truncateTo
  rw [h.size, h.storage]
  split
  · exact h
  · apply patchLength
    exact ⟨rfl, h.maxSize⟩

theorem close (h : b.Alike b') (offset : Nat) : (b.close offset).Alike (b'.close offset) := by
  unfold Blob.close
  rw [h.canClose, h.root]
  split
  · exact h.patchLength offset _
  · exact h

theorem append (h : b.Alike b') (item : Item) : (b.append item).Alike (b'.append item) := by
  unfold Blob.append
  rw [h.stopOf]
  apply patchLength
  exact ⟨congrArg (·.append item.toBytes) h.storage, h.maxSize⟩

theorem copyOver (h : b.Alike b') (f : Field) (copy : Bytes) :
    (((b.appendRoom f).patch b.size copy).clearPadding b.size).Alike
      (((b'.appendRoom f).patch b'.size copy).clearPadding b'.size) := by
  have hroomy : (b.appendRoom f).Alike (b'.appendRoom f) := h.append _
  rw [h.size]
  exact (hroomy.patch b'.size copy).clearPadding b'.size

end Alike

/-! ## Writes -/

/-- Both writes fail, for the same reason, or put a field in the same place of blobs alike. -/
inductive AlikeWritten {ε : Type} : Except ε (Nat × Blob) → Except ε (Nat × Blob) → Prop where
  | error (e : ε) : AlikeWritten (.error e) (.error e)
  | ok (offset : Nat) {after after' : Blob} : after.Alike after' →
      AlikeWritten (.ok (offset, after)) (.ok (offset, after'))

namespace Alike

variable {b b' : Blob}

theorem put (h : b.Alike b') (item : Item) : AlikeWritten (b.put item) (b'.put item) := by
  unfold Blob.put
  rw [h.refusal?]
  split
  · exact .error _
  · rw [h.size]
    exact .ok _ (h.append item)

theorem putField (h : b.Alike b') (f : Field) : AlikeWritten (b.putField f) (b'.putField f) := by
  unfold Blob.putField
  rw [h.refusal?]
  split
  · exact .error _
  · have hcopied := h.copyOver f (f.bytes.take (copiedLength f))
    rw [h.size] at hcopied ⊢
    exact .ok _ hcopied

theorem putCopy (h : b.Alike b') (source : Nat) : AlikeWritten (b.putCopy source) (b'.putCopy source) := by
  unfold Blob.putCopy
  rw [h.field?]
  split
  · exact .error _
  · next f _ =>
    rw [h.refusal?]
    split
    · exact .error _
    · have hroomy : (b.appendRoom f).storage = (b'.appendRoom f).storage := (h.append _).storage
      have hcopied := h.copyOver f ((b'.appendRoom f).storage.slice source (source + copiedLength f))
      dsimp only
      rw [hroomy]
      rw [h.size] at hcopied ⊢
      exact .ok _ hcopied

end Alike

end Blob

/-! ## Texts -/

namespace Json

/-- Texts that end the same way, in blobs alike. -/
structure Decoded.Alike (d d' : Decoded) : Prop where
  blob : d.blob.Alike d'.blob
  fault? : d.fault? = d'.fault?

variable {b b' : Blob}

theorem closeInnermost_alike (h : b.Alike b') (outer : OpenFields) :
    (closeInnermost b outer).Alike (closeInnermost b' outer) := by
  unfold closeInnermost
  split
  · exact h.close _
  · exact h

/-- **Writing gets equally far**, whatever is allocated. -/
theorem writeTokens_alike (fillsRoot : Bool) (tokens : List (Token × Position)) (outer : OpenFields)
    (h : b.Alike b') :
    (writeTokens fillsRoot outer b tokens).Alike (writeTokens fillsRoot outer b' tokens) := by
  -- induction on the tokens: each is a closing, the root itself, a refusal, or a field
  induction tokens generalizing outer b b' with
  | nil => exact ⟨h, rfl⟩
  | cons entry rest ih =>
    obtain ⟨token, refusal⟩ := entry
    simp only [writeTokens]
    split
    · exact ih _ (closeInnermost_alike h outer)
    · next item _ =>
      split
      · exact ih _ (h.withRootType item.type)
      · rw [h.refusal?]
        split
        · exact ⟨h, rfl⟩
        · have hrest := ih (outer.push token b'.size) (h.append item)
          rw [h.size]
          exact ⟨hrest.blob, hrest.fault?⟩

/-- **Decoding ends the same way**, also when what was written is removed again. -/
theorem decode_alike (fillsRoot : Bool) (h : b.Alike b') (text : String) :
    (decode fillsRoot b text).Alike (decode fillsRoot b' text) := by
  have hwritten := writeTokens_alike fillsRoot (Scan.ofText text).tokens [] h
  unfold decode
  dsimp only
  rw [hwritten.fault?, h.size, h.head]
  split
  · exact hwritten
  · exact ⟨(hwritten.blob.truncateTo _).withRootType _, rfl⟩

end Json

/-! ## Operations -/

namespace Operation

/-- Operations that return the same and leave blobs alike. -/
structure AlikeOutcome (o o' : Outcome) : Prop where
  result : o.result = o'.result
  blob : o.blob.Alike o'.blob

variable {b b' : Blob}

theorem ofWritten_alike (h : b.Alike b') {w w' : Except BlobError (Nat × Blob)} (hw : Blob.AlikeWritten w w')
    (note : Nat → Journal) : AlikeOutcome (ofWritten b note w) (ofWritten b' note w') := by
  cases hw with
  | error e => exact ⟨rfl, h⟩
  | ok offset hafter => exact ⟨rfl, hafter⟩

theorem ofWrite_alike (h : b.Alike b') {w w' : Blob.Written} (hw : Blob.AlikeWritten w w')
    (note : Nat → Journal) : AlikeOutcome (ofWrite b w note) (ofWrite b' w' note) := by
  cases hw with
  | error e => exact ⟨rfl, h⟩
  | ok offset hafter => exact ⟨rfl, hafter⟩

/-- **No operation looks at what is allocated.** -/
theorem run_alike (h : b.Alike b') (op : Operation Nat) : AlikeOutcome (op.run b) (op.run b') := by
  -- every operation is made of changes that look at the content and the largest size only
  cases op with
  | putScalar | putInt | putBool | putReal | putDouble | putSingle | openContainer =>
    exact ofWrite_alike h (h.put _) _
  | putString text =>
    simp only [run, Blob.putString_eq]
    exact ofWrite_alike h (h.put _) _
  | putField f => exact ofWrite_alike h (h.putField f) _
  | putCopy source => exact ofWritten_alike h (h.putCopy source) _
  | close container => exact ⟨rfl, h.close container⟩
  | putJson text =>
    have hdecoded : (b.putJson text).Alike (b'.putJson text) := Json.decode_alike false h text
    simp only [run, hdecoded.fault?]
    split
    · exact ⟨rfl, hdecoded.blob⟩
    · exact ⟨rfl, hdecoded.blob⟩
  | resize n =>
    -- room is refused by the limit, which both have in common
    simp only [run, Blob.resize, h.limit]
    split_ifs
    · exact ⟨rfl, h⟩
    · exact ⟨rfl, h.reserve n⟩
  | reset => exact ⟨rfl, h.reset⟩

end Operation

/-! ## Sessions -/

namespace Session

/-- Sessions that know the same offsets, and whose blobs differ only in what is allocated. -/
structure Alike (s s' : Session) : Prop where
  blobs : ∀ i : Nat, Option.Rel Blob.Alike s.blobs[i]? s'.blobs[i]?
  refs : s.refs = s'.refs
  handles : s.handles = s'.handles

namespace Alike

variable {s s' : Session}

theorem refl (s : Session) : s.Alike s where
  blobs := by
    intro i
    cases s.blobs[i]? with
    | none => exact .none
    | some b => exact .some (.refl b)
  refs := rfl
  handles := rfl

theorem trans {s'' : Session} (h : s.Alike s') (h' : s'.Alike s'') : s.Alike s'' where
  blobs := by
    intro i
    have hrel := h.blobs i
    have hrel' := h'.blobs i
    generalize s.blobs[i]? = b?, s'.blobs[i]? = b'?, s''.blobs[i]? = b''? at hrel hrel' ⊢
    cases hrel with
    | none => exact hrel'
    | some hb =>
      cases hrel' with
      | some hb' => exact .some (hb.trans hb')
  refs := h.refs.trans h'.refs
  handles := h.handles.trans h'.handles

/-- Either both have a blob with a given number or neither has one. -/
theorem getElem?_blobs (h : s.Alike s') (i : Nat) :
    (s.blobs[i]? = none ∧ s'.blobs[i]? = none) ∨
      ∃ b b', s.blobs[i]? = some b ∧ s'.blobs[i]? = some b' ∧ b.Alike b' := by
  have hrel := h.blobs i
  generalize s.blobs[i]? = b?, s'.blobs[i]? = b'? at hrel ⊢
  cases hrel with
  | none => exact .inl ⟨rfl, rfl⟩
  | some hb => exact .inr ⟨_, _, rfl, rfl, hb⟩

theorem blob (h : s.Alike s') (i : Nat) : (s.blob i).Alike (s'.blob i) := by
  unfold Session.blob
  rcases h.getElem?_blobs i with ⟨hb, hb'⟩ | ⟨b, b', hb, hb', halike⟩
  · simp only [hb, hb', Option.getD_none]
    exact .refl .new
  · simp only [hb, hb', Option.getD_some]
    exact halike

theorem offset?_eq (h : s.Alike s') : s.offset? = s'.offset? := by
  funext place
  cases place with
  | field i => simp only [Session.offset?, h.refs]
  | container i => simp only [Session.offset?, h.handles]

theorem contents_eq (h : s.Alike s') : s.blobs.map Blob.content = s'.blobs.map Blob.content := by
  apply List.ext_getElem?
  intro i
  simp only [List.getElem?_map]
  rcases h.getElem?_blobs i with ⟨hb, hb'⟩ | ⟨b, b', hb, hb', halike⟩
  · simp only [hb, hb']
  · simp only [hb, hb', Option.map_some, halike.content]

theorem setBlob (h : s.Alike s') (i : Nat) {b b' : Blob} (hb : b.Alike b') :
    (s.setBlob i b).Alike (s'.setBlob i b') where
  blobs := by
    intro j
    simp only [Session.setBlob, List.getElem?_set']
    split
    · rcases h.getElem?_blobs j with ⟨hnone, hnone'⟩ | ⟨_, _, hsome, hsome', -⟩
      · simp only [hnone, hnone']
        exact .none
      · simp only [hsome, hsome']
        exact .some hb
    · exact h.blobs j
  refs := h.refs
  handles := h.handles

theorem perform (h : s.Alike s') {i : Nat} (hb : (s.blob i).Alike (s'.blob i)) (op : Operation Nat) :
    (s.perform i op).1.Alike (s'.perform i op).1 := by
  obtain ⟨hresult, hblob⟩ := Operation.run_alike hb op
  have hset := h.setBlob i hblob
  simp only [Session.perform, hresult]
  split
  · exact ⟨hset.blobs, by simp only [hset.refs], by simp only [hset.handles]⟩
  · exact hset

/-- **Every step keeps sessions alike**, and returns the same. -/
theorem step (h : s.Alike s') (st : Step) :
    (s.step st).Alike (s'.step st) ∧ s.answer? st = s'.answer? st := by
  cases st with
  | make i origin =>
    -- what is made does not depend on the session
    refine ⟨?_, rfl⟩
    simp only [Session.step, Session.make]
    split
    · exact h.setBlob i (.refl _)
    · exact h
  | clone source target =>
    simp only [Session.step, Session.answer?]
    rcases h.getElem?_blobs source with ⟨hb, hb'⟩ | ⟨b, b', hb, hb', halike⟩
    · simp only [hb, hb', and_true]
      exact h
    · simp only [hb, hb', Option.map_some, and_true]
      exact h.setBlob target halike
  | perform i op =>
    simp only [Session.step, Session.answer?, h.offset?_eq]
    cases op.resolve? s'.offset? with
    | none => exact ⟨h, rfl⟩
    | some op' =>
      -- there is a blob on both sides or on neither, and the two are alike
      rcases h.getElem?_blobs i with ⟨hb, hb'⟩ | ⟨b, b', hb, hb', halike⟩
      · simp only [hb, hb', and_true]
        exact h
      · have hblob : (s.blob i).Alike (s'.blob i) := by
          simpa only [blob_eq hb, blob_eq hb'] using halike
        simp only [hb, hb']
        exact ⟨h.perform hblob op', congrArg some (Operation.run_alike halike op').result⟩

theorem shown_eq (h : s.Alike s') (st : Step) : s.shown st = s'.shown st := by
  simp only [shown, (h.step st).2, (h.step st).1.contents_eq]

theorem run (h : s.Alike s') (program : List Step) : (s.run program).Alike (s'.run program) := by
  induction program generalizing s s' with
  | nil => exact h
  | cons st rest ih => exact ih (h.step st).1

/-- **Sessions alike cannot be told apart** by any program. -/
theorem trace_eq (h : s.Alike s') (program : List Step) : s.trace program = s'.trace program := by
  induction program generalizing s s' with
  | nil => rfl
  | cons st rest ih => simp only [trace, h.shown_eq st, ih (h.step st).1]

end Alike

/-! ## Main statement -/

/-- An empty blob that was used, and a new one of the same largest size. -/
theorem reset_alike_create {b fresh : Blob} {config : Config} (hfresh : Blob.create config = .ok fresh)
    (hmax : b.config.maxSize = config.maxSize) : b.reset.Alike fresh := by
  rw [Blob.create_eq_ok hfresh]
  exact ⟨rfl, hmax⟩

/-- Emptying a blob and putting a new one of the same largest size in its place lead to sessions alike. -/
theorem step_reset_alike {s : Session} (i : Nat) {config : Config} {fresh : Blob}
    (hfresh : Blob.create config = .ok fresh) (hmax : (s.blob i).config.maxSize = config.maxSize) :
    (s.step (.perform i .reset)).Alike (s.step (.make i (.create config))) := by
  have hmake : s.step (.make i (.create config)) = s.setBlob i fresh := by
    simp only [step, make, Origin.make, hfresh]
  have hreset : s.step (.perform i .reset) = s.setBlob i (s.blob i).reset := by
    simp only [step, Operation.resolve?]
    cases hb : s.blobs[i]? with
    | none =>
      -- there is no such blob, and nothing changes
      have hlength : s.blobs.length ≤ i := List.getElem?_eq_none_iff.mp hb
      simp only [setBlob, List.set_eq_of_length_le hlength]
    | some b => rfl
  rw [hmake, hreset]
  exact (Alike.refl s).setBlob i (reset_alike_create hfresh hmax)

/-- **A blob that was used and emptied cannot be told apart from a new one**, whatever was done to it and
    whatever offsets are known, neither by what its operations return nor by what it holds after them. The same
    is true of their buffers. -/
theorem trace_reset (n : Nat) (history : List Step) {s : Session} (hs : (start n).run history = s) (i : Nat)
    {config : Config} {fresh : Blob} (hfresh : Blob.create config = .ok fresh)
    (hmax : (s.blob i).config.maxSize = config.maxSize) (refs handles : List Nat) (program : List Step) :
    ((s.knowing refs handles).step (.perform i .reset)).trace program =
        ((s.knowing refs handles).step (.make i (.create config))).trace program ∧
      ((∀ offset ∈ refs ++ handles, Placed offset) →
        ∃ m shown, (Machine.start? n).bind (·.run? history) = some m ∧
          ((m.knowing refs handles).step? (.perform i .reset)).bind (·.trace? program) = some shown ∧
          ((m.knowing refs handles).step? (.make i (.create config))).bind (·.trace? program) =
            some shown) := by
  have hsound : s.Sound := hs ▸ (Sound.start n).run history
  have halike := step_reset_alike (s := s.knowing refs handles) i hfresh hmax
  have htrace := halike.trace_eq program
  refine ⟨htrace, ?_⟩
  intro hplaced
  have hknowing := hsound.knowing hplaced
  refine ⟨s.memory, _, ?_, Machine.step?_trace?_memory hknowing _ program, ?_⟩
  · rw [Machine.start?_eq, Option.bind_some, Machine.run?_memory (Sound.start n), hs]
  · rw [htrace]
    exact Machine.step?_trace?_memory hknowing _ program

/-- A blob whose root is a table, that grows, and in which a text fails. -/
def sampleHistory : List Step :=
  [.make 0 (.json { maxSize := 600 } "\x7b\"k\":[1,2]\x7d"), .perform 0 (.resize 300),
    .perform 0 (.openContainer .square), .perform 0 (.putJson "[1,[2"), .perform 0 (.putInt 70000)]

/-- Closes with an old offset and with a new one, a copy, a text that fails, and a growth that is refused. -/
def sampleSequel : List Step :=
  [.perform 0 (.close (.container 0)), .perform 0 (.openContainer .brace), .perform 0 (.putCopy (.field 0)),
    .perform 0 (.putBool true), .perform 0 (.close (.container 1)), .perform 0 (.putJson "[true"),
    .perform 0 (.resize 601), .perform 0 .reset]

theorem trace_reset_sampleHistory :
    ∃ s fresh, (start 1).run sampleHistory = s ∧
      Blob.create { initialCapacity := 500, maxSize := 600 } = .ok fresh ∧ (s.blob 0).config.maxSize = 600 ∧
      ((s.knowing [4] [8]).step (.perform 0 .reset)).trace sampleSequel =
        ((s.knowing [4] [8]).step (.make 0 (.create { initialCapacity := 500, maxSize := 600 }))).trace
          sampleSequel ∧
      ∃ m shown, (Machine.start? 1).bind (·.run? sampleHistory) = some m ∧
        ((m.knowing [4] [8]).step? (.perform 0 .reset)).bind (·.trace? sampleSequel) = some shown ∧
        ((m.knowing [4] [8]).step? (.make 0 (.create { initialCapacity := 500, maxSize := 600 }))).bind
          (·.trace? sampleSequel) = some shown := by
  have hmax : (((start 1).run sampleHistory).blob 0).config.maxSize = 600 := by decide +kernel
  have hfresh : Blob.create { initialCapacity := 500, maxSize := 600 } =
      .ok (.ofContent Blob.emptyContent 500 { initialCapacity := 500, maxSize := 600 }) := rfl
  have hplaced : ∀ offset ∈ [4] ++ [8], Placed offset := by simp [Placed, headerSize]
  obtain ⟨htrace, hmemory⟩ := trace_reset 1 sampleHistory rfl 0 hfresh hmax [4] [8] sampleSequel
  exact ⟨_, _, rfl, hfresh, hmax, htrace, hmemory hplaced⟩

end Session

end FieldTree
