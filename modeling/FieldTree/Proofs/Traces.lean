import FieldTree.Proofs.Runs

/-!
# Traces

What a program shows of itself is what every step returns and what the blobs hold after it. How much is
allocated for a blob does not show. Two programs that show the same cannot be told apart by whoever runs them.

## Architecture

- `Session.shown`, `Session.trace`: what a program on blobs shows.
- `Machine.shown?`, `Machine.trace?`: what a program on buffers shows.
- `Machine.trace?_memory`: **buffers show what blobs show.**
-/

namespace FieldTree

/-- What a step returns: an error, or the offset of the new field if there is one. -/
abbrev Answer := Except BlobError (Option Nat)

/-- What a step shows. -/
structure Observation where
  /-- what was returned; nothing where the step mentions a blob or an offset that is not there -/
  answer? : Option Answer
  /-- what the blobs hold after the step -/
  contents : List Bytes

/-- Whether the step returned an error. -/
def Observation.failed (seen : Observation) : Bool :=
  match seen.answer? with
  | some (.error _) => true
  | _ => false

/-! ## Programs on blobs -/

namespace Session

/-- The same blobs, with other offsets to choose from. -/
def knowing (s : Session) (refs handles : List Nat) : Session := { s with refs := refs, handles := handles }

/-- What a step returns. -/
def answer? (s : Session) : Step → Option Answer
  | .make _ origin => some (origin.make.1.map fun _ => none)
  | .clone source _ => s.blobs[source]?.map fun _ => .ok none
  | .perform i op =>
    match op.resolve? s.offset?, s.blobs[i]? with
    | some op, some b => some (op.run b).result
    | _, _ => none

/-- What a step shows. -/
def shown (s : Session) (st : Step) : Observation := ⟨s.answer? st, (s.step st).blobs.map Blob.content⟩

/-- What the steps of a program show, one after the other. -/
def trace (s : Session) : List Step → List Observation
  | [] => []
  | st :: rest => s.shown st :: (s.step st).trace rest

theorem Sound.knowing {s : Session} (h : s.Sound) {refs handles : List Nat}
    (hplaced : ∀ offset ∈ refs ++ handles, Placed offset) : (s.knowing refs handles).Sound where
  blobs := h.blobs
  refs := fun offset hoffset => hplaced offset (List.mem_append_left _ hoffset)
  handles := fun offset hoffset => hplaced offset (List.mem_append_right _ hoffset)

end Session

/-! ## Programs on buffers -/

namespace Machine

/-- The same buffers, with other offsets to choose from. -/
def knowing (m : Machine) (refs handles : List Nat) : Machine := { m with refs := refs, handles := handles }

/-- What a step returns, unless an access is out of range. -/
def answer? (m : Machine) : Step → Option (Option Answer)
  | .make _ origin => (Buffer.make? origin).map fun made => some (made.map fun _ => none)
  | .clone source _ => some (m.buffers[source]?.map fun _ => .ok none)
  | .perform i op =>
    match op.resolve? m.offset?, m.buffers[i]? with
    | some op, some buffer => (buffer.run? op).map fun (result, _) => some result
    | _, _ => some none

/-- What all buffers hold, unless an access is out of range. -/
def contents? (m : Machine) : Option (List Bytes) := m.buffers.mapM Buffer.content?

/-- What a step shows. -/
def shown? (m : Machine) (st : Step) : Option Observation := do
  return ⟨← m.answer? st, ← (← m.step? st).contents?⟩

/-- What the steps of a program show, one after the other. -/
def trace? (m : Machine) : List Step → Option (List Observation)
  | [] => some []
  | st :: rest => do return (← m.shown? st) :: (← (← m.step? st).trace? rest)

/-! ## Machine and session -/

variable {s : Session}

theorem answer?_memory (h : s.Sound) (st : Step) : s.memory.answer? st = some (s.answer? st) := by
  -- the answer is that of the origin, of the blob that is cloned, or of the operation, on either layer
  cases st with
  | make i origin =>
    rw [answer?, Buffer.make?_eq, Session.answer?]
    cases origin.make.1 <;> rfl
  | clone source target =>
    have hbuffers : s.memory.buffers[source]? = s.blobs[source]?.map Blob.memory := List.getElem?_map
    rw [answer?, hbuffers, Session.answer?]
    cases s.blobs[source]? <;> rfl
  | perform i op =>
    have hbuffers : s.memory.buffers[i]? = s.blobs[i]?.map Blob.memory := List.getElem?_map
    rw [answer?, hbuffers, offset?_memory, Session.answer?]
    cases hop : op.resolve? s.offset? with
    | none => rfl
    | some op' =>
      cases hb : s.blobs[i]? with
      | none => rfl
      | some b =>
        change (b.memory.run? op').map _ = _
        rw [Buffer.run?_memory (h.blobs b (List.mem_of_getElem? hb))]
        rfl

theorem mapM_content?_memory {blobs : List Blob} (h : ∀ b ∈ blobs, b.Sound) :
    (blobs.map Blob.memory).mapM Buffer.content? = some (blobs.map Blob.content) := by
  induction blobs with
  | nil => rfl
  | cons b rest ih =>
    obtain ⟨hb, hrest⟩ := List.forall_mem_cons.mp h
    simp [Buffer.content?_memory hb, ih hrest]

theorem contents?_memory (h : s.Sound) : s.memory.contents? = some (s.blobs.map Blob.content) :=
  mapM_content?_memory h.blobs

theorem shown?_memory (h : s.Sound) (st : Step) : s.memory.shown? st = some (s.shown st) := by
  simp [shown?, answer?_memory h st, step?_memory h st, contents?_memory (h.step st), Session.shown]

/-- **Buffers show what blobs show.** -/
theorem trace?_memory (h : s.Sound) (program : List Step) :
    s.memory.trace? program = some (s.trace program) := by
  induction program generalizing s with
  | nil => rfl
  | cons st rest ih =>
    simp [trace?, shown?_memory h st, step?_memory h st, ih (h.step st), Session.trace]

theorem step?_trace?_memory (h : s.Sound) (st : Step) (program : List Step) :
    (s.memory.step? st).bind (·.trace? program) = some ((s.step st).trace program) := by
  rw [step?_memory h, Option.bind_some, trace?_memory (h.step st)]

end Machine

end FieldTree
