import FieldTree.Proofs.Independence
import FieldTree.Proofs.Json.Rollback
import FieldTree.Proofs.Preservation

/-!
# Failures Are Transparent

A step that returns an error may have grown the buffer of a blob. It leaves no other trace, as long as no root
states a length that needs padding, and only adopted bytes bring such a root. So the steps that fail can be left
out of a program, and the others do not notice.

## Architecture

- `Operation.blob_alike_of_error`: what an operation that fails leaves of a blob.
- `Session.Exact`: no root needs padding, which every step keeps that does not adopt bytes.
- `Session.step_alike_of_failed`: what a step that fails leaves of a session.
- `Session.withoutFailures`: a program without the steps that fail.
- `Session.trace_withoutFailures`: **the main statement.**
-/

namespace FieldTree

/-! ## Operations that fail -/

namespace Operation

variable {b : Blob} {e : BlobError}

/-- **An operation that fails leaves the blob as it was**, but for what is allocated. -/
theorem blob_alike_of_error (hb : b.Sound) (hexact : b.Exact) {op : Operation Nat}
    (hplaces : ∀ place ∈ op.places, headerSize ≤ place) (h : (op.run b).result = .error e) :
    (op.run b).blob.Alike b := by
  cases op with
  | putScalar | putString | putInt | putBool | putReal | putDouble | putSingle | putField | putCopy
  | openContainer =>
    -- a write that is refused has not touched the blob
    have hwrote := run_wrote hb rfl hplaces
    generalize run b _ = o at hwrote h ⊢
    cases hwrote with
    | refused => exact .refl b
    | item | field => cases h
  | close | reset => cases h
  | putJson text =>
    -- a fault in the text takes everything back that was written in front of it
    simp only [run] at h ⊢
    split
    · next fault hfault =>
      have hafter : (b.putJson text).blob.Sound := Json.decode_sound false hb text
      -- nothing is rounded up where the root needs no padding
      have hroot : (b.putJson text).blob.root = b.root :=
        (Blob.root_putJson_eq_iff hb hfault).mpr (.inl (Blob.rawLength_eq_size_iff.mp hexact))
      obtain ⟨-, hbody, -⟩ := Blob.putJson_of_fault hb hfault
      constructor
      case storage =>
        apply Storage.ext
        change (b.putJson text).blob.content = b.content
        rw [hafter.toFormed.content_eq, hb.toFormed.content_eq, hroot, hbody]
      case maxSize =>
        have hconfig : (b.putJson text).blob.config = b.config :=
          (Blob.preserved_config b.config).decode false hb rfl text
        rw [hconfig]
    · next hnone =>
      simp only [hnone] at h
      cases h
  | resize n =>
    -- a refusal of room has not touched it either
    simp only [run] at h ⊢
    split
    · exact .refl b
    · next after hresize =>
      simp only [hresize] at h
      cases h

end Operation

/-! ## Blobs without adopted bytes -/

/-- Whether a step makes a blob from bytes that were not written by any operation. -/
def Step.adopts : Step → Bool
  | .make _ (.adopt ..) => true
  | _ => false

theorem Origin.make_exact {origin : Origin} {b : Blob} (hmake : origin.make.1 = .ok b)
    (horigin : ∀ config data, origin ≠ .adopt config data) : b.Exact := by
  have hcreated : ∀ {config : Config} {b : Blob}, Blob.create config = .ok b → b.Exact := by
    intro config b hcreate
    rw [Blob.create_eq_ok hcreate]
    exact Blob.exact_of_content (Blob.content_ofContent _ _ _)
  cases origin with
  | new =>
    cases hmake
    exact Blob.exact_of_content (Blob.content_ofContent _ _ _)
  | create config => exact hcreated hmake
  | adopt config data => exact absurd rfl (horigin config data)
  | json config text =>
    simp only [make, Blob.ofJson] at hmake
    cases hcreate : Blob.create config with
    | error e =>
      simp only [hcreate] at hmake
      cases hmake
    | ok fresh =>
      simp only [hcreate] at hmake
      split at hmake
      · cases hmake
      · cases hmake
        -- decoding starts from an exact blob and keeps it exact
        exact Blob.preserved_exact.decode true (Blob.sound_create hcreate) (hcreated hcreate) text

namespace Session

/-- A sound session in which no root needs padding. -/
structure Exact (s : Session) : Prop extends s.Sound where
  exact : ∀ b ∈ s.blobs, b.Exact

variable {s s' : Session}

theorem Exact.start (n : Nat) : (Session.start n).Exact where
  toSound := Sound.start n
  exact := by
    intro b hb
    rw [List.eq_of_mem_replicate hb]
    exact Blob.exact_of_content (Blob.content_ofContent _ _ _)

/-- **No root comes to need padding** by a step that does not adopt bytes. -/
theorem Exact.step (h : s.Exact) {st : Step} (hst : st.adopts = false) : (s.step st).Exact where
  toSound := h.toSound.step st
  exact := by
    apply blobs_step Blob.preserved_exact h.toSound h.exact
    rintro i origin b rfl hmake
    apply Origin.make_exact hmake
    rintro config data rfl
    cases hst

/-! ## Steps that fail -/

theorem setBlob_alike {i : Nat} {b b' : Blob} (hb : s.blobs[i]? = some b) (h : b'.Alike b) :
    (s.setBlob i b').Alike s := by
  have hself : s.setBlob i b = s := by
    obtain ⟨hi, hget⟩ := List.getElem?_eq_some_iff.mp hb
    simp only [setBlob, ← hget, List.set_getElem_self]
  have halike := (Alike.refl s).setBlob i h
  rwa [hself] at halike

/-- **A step that fails leaves the session as it was**, but for what is allocated. -/
theorem step_alike_of_failed (h : s.Exact) {st : Step} (hfailed : (s.shown st).failed = true) :
    (s.step st).Alike s := by
  unfold Observation.failed at hfailed
  split at hfailed
  · next e hanswer =>
    simp only [shown] at hanswer
    -- a clone does not fail; what is not made is not put anywhere; an operation leaves its blob alike
    cases st with
    | make i origin =>
      simp only [answer?, Option.some.injEq] at hanswer
      simp only [step, make]
      split
      · next hmake =>
        simp only [hmake] at hanswer
        cases hanswer
      · exact .refl s
    | clone source target =>
      obtain ⟨b, -, hok⟩ := Option.map_eq_some_iff.mp hanswer
      cases hok
    | perform i op =>
      simp only [answer?] at hanswer
      split at hanswer
      · next op' b hop hb =>
        have hmem := List.mem_of_getElem? hb
        have hresult := Option.some.inj hanswer
        have halike := Operation.blob_alike_of_error (h.blobs b hmem) (h.exact b hmem)
          (h.toSound.places hop) hresult
        simp only [step, hop, hb, perform, blob_eq hb, hresult]
        exact setBlob_alike hb halike
      · cases hanswer
  · cases hfailed

/-! ## Main statement -/

/-- The program without the steps that return an error. -/
def withoutFailures (s : Session) : List Step → List Step
  | [] => []
  | st :: rest =>
    if (s.shown st).failed then (s.step st).withoutFailures rest else st :: (s.step st).withoutFailures rest

/-- Next to a session that is alike, the steps that fail can be left out. -/
theorem trace_withoutFailures_of_alike (h : s.Exact) (halike : s.Alike s') (program : List Step)
    (hprogram : ∀ st ∈ program, st.adopts = false) :
    s'.trace (s.withoutFailures program) = (s.trace program).filter fun seen => !seen.failed := by
  -- the session of the shorter program stays alike while that of the longer one goes through a failure
  induction program generalizing s s' with
  | nil => rfl
  | cons st rest ih =>
    obtain ⟨hst, hrest⟩ := List.forall_mem_cons.mp hprogram
    have hnext := h.step hst
    simp only [withoutFailures, trace]
    by_cases hfailed : (s.shown st).failed = true
    case pos =>
      have hback := (step_alike_of_failed h hfailed).trans halike
      simp only [hfailed, if_true, List.filter_cons, Bool.not_true, Bool.false_eq_true, if_false]
      exact ih hnext hback hrest
    case neg =>
      have hstep := (halike.step st).1
      simp only [hfailed, if_false, trace, List.filter_cons, Bool.not_false, if_true, Bool.false_eq_true,
        ← halike.shown_eq st]
      exact congrArg _ (ih hnext hstep hrest)

/-- **Failures are transparent.** Whatever program makes blobs other than from foreign bytes and works on them,
    the steps that return an error can be left out: all others show the same, and their buffers do too. -/
theorem trace_withoutFailures (n : Nat) (program : List Step) (hprogram : ∀ st ∈ program, st.adopts = false) :
    (start n).trace ((start n).withoutFailures program) =
        ((start n).trace program).filter (fun seen => !seen.failed) ∧
      ∃ seen, (Machine.start? n).bind (·.trace? program) = some seen ∧
        (Machine.start? n).bind (·.trace? ((start n).withoutFailures program)) =
          some (seen.filter fun seen => !seen.failed) := by
  have htrace := trace_withoutFailures_of_alike (Exact.start n) (.refl _) program hprogram
  refine ⟨htrace, (start n).trace program, ?_, ?_⟩
  · rw [Machine.start?_eq, Option.bind_some, Machine.trace?_memory (Sound.start n)]
  · rw [Machine.start?_eq, Option.bind_some, Machine.trace?_memory (Sound.start n), htrace]

/-- A blob of at most 48 bytes in which a text fails while a container is open, and after it a growth, a copy of
    what is not there, and a second text. -/
def sampleFailing : List Step :=
  [.make 0 (.create { maxSize := 48 }), .perform 0 (.openContainer .square), .perform 0 (.putInt 300),
    .perform 0 (.putJson sampleObject), .perform 0 (.resize 49), .perform 0 (.close (.container 0)),
    .perform 0 (.putJson "[1"), .perform 0 (.putCopy (.field 0)), .perform 0 (.putCopy (.field 0)),
    .perform 0 (.putBool true)]

theorem trace_withoutFailures_sampleFailing :
    (∀ st ∈ sampleFailing, st.adopts = false) ∧
      (start 1).trace ((start 1).withoutFailures sampleFailing) =
        ((start 1).trace sampleFailing).filter (fun seen => !seen.failed) ∧
      ∃ seen, (Machine.start? 1).bind (·.trace? sampleFailing) = some seen ∧
        (Machine.start? 1).bind (·.trace? ((start 1).withoutFailures sampleFailing)) =
          some (seen.filter fun seen => !seen.failed) :=
  ⟨by decide, trace_withoutFailures 1 sampleFailing (by decide)⟩

example : (start 1).withoutFailures sampleFailing =
    [.make 0 (.create { maxSize := 48 }), .perform 0 (.openContainer .square), .perform 0 (.putInt 300),
      .perform 0 (.close (.container 0)), .perform 0 (.putCopy (.field 0)), .perform 0 (.putCopy (.field 0)),
      .perform 0 (.putBool true)] := by
  decide +kernel

end Session

end FieldTree
