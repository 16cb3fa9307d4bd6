import FieldTree.Proofs.Memory
import FieldTree.Session

/-!
# Runs of Programs

A program makes blobs, copies them and carries out operations on them, in any order. An operation that needs
a place takes any offset that was handed out so far, also one that belongs to another blob, to a content that
was reset since, or to the middle of a payload.

The same program runs on a session and on a machine that keeps whole buffers and checks every access. This
module shows that the machine never leaves a buffer, that it ends in the memory of the session, and which
invariant holds there.

## Architecture

- `Step`, `Session.step`, `Session.run`: programs on blobs.
- `Machine`, `Machine.step?`, `Machine.run?`: the same programs on buffers.
- `Session.Sound`: the invariant of sessions, with `Session.Sound.step` and `Session.Sound.run`.
- `Buffer.Valid`: the invariant of buffers.
-/

namespace FieldTree

/-! ## Programs on blobs -/

/-- An offset that was handed out: the number of a field, or of a container that was opened. -/
inductive Place where
  | field (i : Nat)
  | container (i : Nat)
  deriving DecidableEq, Repr

/-- A step of a program. -/
inductive Step where
  | make (i : Nat) (origin : Origin)
  | clone (source target : Nat)
  | perform (i : Nat) (op : Operation Place)
  deriving DecidableEq, Repr

namespace Session

/-- The offset at a place, if that many were handed out. -/
def offset? (s : Session) : Place → Option Nat
  | .field i => s.refs[i]?
  | .container i => s.handles[i]?

/-- Carries out a step. A step that mentions a blob or an offset that is not there does nothing. -/
def step (s : Session) : Step → Session
  | .make i origin => (s.make i origin).1
  | .clone source target =>
    match s.blobs[source]? with
    | none => s
    | some b => s.setBlob target b
  | .perform i op =>
    match op.resolve? s.offset?, s.blobs[i]? with
    | some op, some _ => (s.perform i op).1
    | _, _ => s

/-- Carries out a program. -/
def run (s : Session) (steps : List Step) : Session := steps.foldl step s

theorem blob_eq {s : Session} {i : Nat} {b : Blob} (hb : s.blobs[i]? = some b) : s.blob i = b := by
  simp only [blob, hb, Option.getD_some]

end Session

/-! ## Programs on buffers -/

/-- Buffers, and the offsets handed out so far. -/
structure Machine where
  buffers : List Buffer
  refs : List Nat := []
  handles : List Nat := []
  deriving DecidableEq, Repr

namespace Machine

/-- The offset at a place, if that many were handed out. -/
def offset? (m : Machine) : Place → Option Nat
  | .field i => m.refs[i]?
  | .container i => m.handles[i]?

/-- Puts a buffer in the place of another. -/
def setBuffer (m : Machine) (i : Nat) (buffer : Buffer) : Machine :=
  { m with buffers := m.buffers.set i buffer }

/-- Remembers the offset of a new field. -/
def record (m : Machine) (isOpening : Bool) : Except BlobError (Option Nat) → Machine
  | .ok (some offset) =>
    { m with
        refs := m.refs ++ [offset]
        handles := if isOpening then m.handles ++ [offset] else m.handles }
  | _ => m

/-- Carries out a step, unless an access is out of range. -/
def step? (m : Machine) : Step → Option Machine
  | .make i origin => do
    match ← Buffer.make? origin with
    | .error _ => return m
    | .ok buffer => return m.setBuffer i buffer
  | .clone source target =>
    match m.buffers[source]? with
    | none => some m
    | some buffer => some (m.setBuffer target buffer)
  | .perform i op =>
    match op.resolve? m.offset?, m.buffers[i]? with
    | some op, some buffer => do
      let (result, buffer) ← buffer.run? op
      return (m.setBuffer i buffer).record op.isOpening result
    | _, _ => some m

/-- Carries out a program, unless an access is out of range. -/
def run? (m : Machine) (steps : List Step) : Option Machine := steps.foldlM step? m

/-- A machine with `n` empty buffers. -/
def start? (n : Nat) : Option Machine := do
  let buffer ← Buffer.empty? blockSize {}
  return { buffers := List.replicate n buffer }

end Machine

/-- The buffers of all blobs of a session. -/
def Session.memory (s : Session) : Machine := ⟨s.blobs.map Blob.memory, s.refs, s.handles⟩

/-! ## The invariant -/

/-- A place where a field can start: behind the root's header, and aligned. -/
def Placed (offset : Nat) : Prop := 4 ∣ offset ∧ headerSize ≤ offset

/-- All blobs are sound, and all offsets that were handed out can be the start of a field. -/
structure Session.Sound (s : Session) : Prop where
  blobs : ∀ b ∈ s.blobs, b.Sound
  refs : ∀ offset ∈ s.refs, Placed offset
  handles : ∀ offset ∈ s.handles, Placed offset

namespace Session.Sound

variable {s : Session}

theorem start (n : Nat) : (Session.start n).Sound where
  blobs := fun b hb => by
    rw [List.eq_of_mem_replicate hb]
    exact Blob.sound_new
  refs := fun _ h => absurd h List.not_mem_nil
  handles := fun _ h => absurd h List.not_mem_nil

theorem setBlob (h : s.Sound) (i : Nat) {b : Blob} (hb : b.Sound) : (s.setBlob i b).Sound where
  blobs := fun b' hb' => by
    rcases List.mem_or_eq_of_mem_set hb' with hmem | rfl
    · exact h.blobs b' hmem
    · exact hb
  refs := h.refs
  handles := h.handles

theorem blob (h : s.Sound) (i : Nat) : (s.blob i).Sound := by
  unfold Session.blob
  cases hi : s.blobs[i]? with
  | none => exact Blob.sound_new
  | some b => exact h.blobs b (List.mem_of_getElem? hi)

theorem of_offset? (h : s.Sound) {place : Place} {offset : Nat} (hoffset : s.offset? place = some offset) :
    Placed offset := by
  cases place with
  | field i => exact h.refs offset (List.mem_of_getElem? hoffset)
  | container i => exact h.handles offset (List.mem_of_getElem? hoffset)

theorem placed (h : s.Sound) {offset : Nat} (hoffset : offset ∈ s.refs ++ s.handles) : Placed offset :=
  (List.mem_append.mp hoffset).elim (h.refs offset) (h.handles offset)

/-- An operation whose places were handed out touches nothing in front of them. -/
theorem behind (h : s.Sound) {op : Operation Place} {op' : Operation Nat}
    (hop : op.resolve? s.offset? = some op') : op'.Behind := by
  cases op with
  | close container =>
    obtain ⟨offset, hoffset, rfl⟩ := Option.map_eq_some_iff.mp hop
    exact (h.of_offset? hoffset).2
  | putCopy source =>
    obtain ⟨offset, -, rfl⟩ := Option.map_eq_some_iff.mp hop
    trivial
  | putScalar | putString | putInt | putBool | putReal | putDouble | putSingle | putField | openContainer
  | putJson | resize | reset =>
    cases hop
    trivial

theorem perform (h : s.Sound) {i : Nat} {b : Blob} (hb : s.blobs[i]? = some b) {op : Operation Nat}
    (hop : op.Behind) : (s.perform i op).1.Sound := by
  have hsound := h.blobs b (List.mem_of_getElem? hb)
  obtain ⟨hafter, hoffset⟩ := Operation.run_sound hsound op hop
  have hset := h.setBlob i hafter
  rw [Session.perform, blob_eq hb]
  rcases hresult : (op.run b).result with e | _ | offset
  · exact hset
  · exact hset
  -- a new field starts where the content ended, which is behind the root and aligned
  · have hplaced : Placed offset := by
      rw [hoffset offset hresult]
      exact ⟨b.dvd_size, hsound.toFormed.headerSize_le_size⟩
    -- one more place keeps a list of places in order
    have hmore : ∀ offsets : List Nat, (∀ o ∈ offsets, Placed o) →
        ∀ o ∈ offsets ++ [offset], Placed o := fun offsets hall o ho => by
      rcases List.mem_append.mp ho with hmem | hmem
      · exact hall o hmem
      · rw [List.mem_singleton.mp hmem]
        exact hplaced
    refine ⟨hset.blobs, hmore _ h.refs, ?_⟩
    cases op.isOpening with
    | true => exact hmore _ h.handles
    | false => exact h.handles

/-- **Every step keeps a session sound.** -/
theorem step (h : s.Sound) (st : Step) : (s.step st).Sound := by
  cases st with
  | make i origin =>
    rw [Session.step, Session.make]
    split
    · next b journal hmake => exact h.setBlob i (Origin.make_sound hmake)
    · exact h
  | clone source target =>
    rw [Session.step]
    split
    · exact h
    · next b hb => exact h.setBlob target (h.blobs b (List.mem_of_getElem? hb))
  | perform i op =>
    rw [Session.step]
    split
    · next op' b hop hb => exact h.perform hb (h.behind hop)
    · exact h

theorem run (h : s.Sound) (steps : List Step) : (s.run steps).Sound := by
  induction steps generalizing s with
  | nil => exact h
  | cons st rest ih => exact ih (h.step st)

end Session.Sound

/-! ## Machine and session -/

namespace Machine

variable {s : Session}

@[simp] theorem memory_setBlob (s : Session) (i : Nat) (b : Blob) :
    (s.setBlob i b).memory = s.memory.setBuffer i b.memory := by
  rw [Session.memory, Session.setBlob, List.map_set]
  rfl

theorem memory_perform {i : Nat} {b : Blob} (hb : s.blobs[i]? = some b) (op : Operation Nat) :
    (s.perform i op).1.memory =
      (s.memory.setBuffer i (op.run b).blob.memory).record op.isOpening (op.run b).result := by
  rw [← memory_setBlob, Session.perform, Session.blob_eq hb]
  rcases (op.run b).result with e | _ | offset <;> rfl

/-- Machine and session hand out the same offsets. -/
theorem offset?_memory (s : Session) : s.memory.offset? = s.offset? := by
  funext place
  cases place <;> rfl

/-- **A step of the machine is the step of the session.** -/
theorem step?_memory (h : s.Sound) (st : Step) : s.memory.step? st = some (s.step st).memory := by
  cases st with
  | make i origin =>
    rw [step?, Buffer.make?_eq, Session.step, Session.make]
    -- what is not made leaves the session alone; what is made takes its place among the blobs
    rcases origin.make with ⟨_ | b, journal⟩
    · rfl
    · rw [memory_setBlob]
      rfl
  | clone source target =>
    have hbuffers : s.memory.buffers[source]? = s.blobs[source]?.map Blob.memory := List.getElem?_map
    rw [step?, hbuffers, Session.step]
    cases s.blobs[source]? with
    | none => rfl
    | some b => rw [memory_setBlob]; rfl
  | perform i op =>
    have hbuffers : s.memory.buffers[i]? = s.blobs[i]?.map Blob.memory := List.getElem?_map
    rw [step?, hbuffers, offset?_memory, Session.step]
    -- places that are not known, or a blob that is not there, make it a step that does nothing
    cases hop : op.resolve? s.offset? with
    | none => rfl
    | some op' =>
      cases hb : s.blobs[i]? with
      | none => rfl
      | some b =>
        change (b.memory.run? op').bind _ = _
        rw [Buffer.run?_memory (h.blobs b (List.mem_of_getElem? hb)), memory_perform hb]
        rfl

/-- **A run of the machine is the run of the session.** -/
theorem run?_memory (h : s.Sound) (steps : List Step) :
    s.memory.run? steps = some (s.run steps).memory := by
  induction steps generalizing s with
  | nil => rfl
  | cons st rest ih =>
    -- one step on either side, which leaves the session sound, and then the rest
    rw [run?, List.foldlM_cons, step?_memory h]
    exact ih (h.step st)

theorem start?_eq (n : Nat) : start? n = some (Session.start n).memory := by
  rw [start?, Buffer.empty?_eq (Nat.le_refl _), Session.memory, Session.start, List.map_replicate]
  rfl

end Machine

/-! ## Main statement -/

namespace Buffer

/-- The invariant of buffers. -/
structure Valid (m : Buffer) : Prop where
  isContainer_root : m.root.type.isContainer = true
  headerSize_le_root : headerSize ≤ m.root.rawLength
  size_le_capacity : m.size ≤ m.bytes.length
  blockSize_le_capacity : blockSize ≤ m.bytes.length
  zeros_behind : m.bytes.drop m.size = Bytes.zeros (m.bytes.length - m.size)

/-- Places are used without an access out of range: reading, closing and copying give a result, closing
    leaves the root's header as it is, and copying changes no more of it than the length. -/
structure SafeAt (m : Buffer) (offset : Nat) : Prop where
  field : ∃ f?, m.field? offset = some f?
  close : ∃ m', m.close? offset = some m' ∧ m'.root = m.root
  copy : ∃ result, m.putCopy offset = some result ∧
    ∀ start m', result = .ok (start, m') → m'.root = m.root.withLength m'.size

variable {b : Blob}

theorem valid_memory (h : b.Sound) : b.memory.Valid where
  isContainer_root := by rw [root_memory h]; exact h.isContainer_root
  headerSize_le_root := by rw [root_memory h]; exact h.headerSize_le_root
  size_le_capacity := by rw [size_memory h, length_memory h]; exact h.size_le_capacity
  blockSize_le_capacity := by rw [length_memory h]; exact h.blockSize_le_capacity
  zeros_behind := by rw [size_memory h, length_memory h, drop_size_memory h]

theorem safeAt_memory (h : b.Sound) {offset : Nat} (hoffset : headerSize ≤ offset) :
    b.memory.SafeAt offset where
  field := ⟨_, field?_memory h offset⟩
  close := by
    obtain ⟨hclosed, hroot⟩ := h.close hoffset
    refine ⟨_, close?_memory h offset, ?_⟩
    rw [root_memory hclosed, hroot, root_memory h]
  copy := by
    refine ⟨_, putCopy_memory h offset, fun start m' hcopy => ?_⟩
    cases hput : b.putCopy offset with
    | error e => rw [hput] at hcopy; cases hcopy
    | ok written =>
      -- a copy that succeeds lengthens the root to the new size and does nothing else to it
      obtain ⟨place, after⟩ := written
      obtain ⟨f, -, hroom, -, hafter⟩ := Blob.putCopy_eq_ok hput
      obtain ⟨hsound, hroot⟩ := h.copyOver hroom _ hafter
      rw [hput] at hcopy
      cases hcopy
      rw [root_memory hsound, root_memory h, size_memory hsound, hroot]

end Buffer

/-- **Every program stays inside its buffers.** -/
theorem Machine.run?_safe (n : Nat) (steps : List Step) :
    ∃ m, (Machine.start? n).bind (·.run? steps) = some m ∧
      m = ((Session.start n).run steps).memory ∧
      (∀ buffer ∈ m.buffers, buffer.Valid ∧ (∃ content, buffer.content? = some content) ∧
        ∀ offset ∈ m.refs ++ m.handles, buffer.SafeAt offset) ∧
      ∀ offset ∈ m.refs ++ m.handles, 4 ∣ offset ∧ headerSize ≤ offset := by
  have hstart := Session.Sound.start n
  have hsound := hstart.run steps
  refine ⟨_, ?_, rfl, fun buffer hbuffer => ?_, fun offset hoffset => ?_⟩
  · rw [start?_eq, Option.bind_some, run?_memory hstart]
  · obtain ⟨b, hb, rfl⟩ := List.mem_map.mp hbuffer
    have hblob := hsound.blobs b hb
    refine ⟨Buffer.valid_memory hblob, ⟨_, Buffer.content?_memory hblob⟩, fun offset hoffset => ?_⟩
    exact Buffer.safeAt_memory hblob (hsound.placed hoffset).2
  · exact hsound.placed hoffset

end FieldTree
