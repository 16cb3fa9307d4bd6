import FieldTree.Proofs.Adoption
import FieldTree.Proofs.Frame

/-!
# Capacity

How much is allocated for a blob, from its origin through every program. A buffer grows in whole blocks and only
for contents that are allowed, so it outgrows the largest content by less than a block, unless it was larger
from the start. Only adoption makes such a buffer: it allocates what the configuration asks for at first without
comparing that to the largest content, where all other origins refuse.

## Architecture

- `Config.ceiling`: the largest content, or a block, in whole blocks.
- `Blob.Bounded`, `Blob.invariant_bounded`: what is allocated for a blob, as an invariant.
- `Blob.preserved_capacity`: what is allocated never becomes less.
- `Blob.create_of_beyond`, `Blob.ofJson_of_beyond`, `Blob.adopt_of_beyond`: configurations that ask for more.
- `Blob.adoptedCapacity_lt_iff`, `Blob.adopt_ne_ok_of_word`: where what is asked for leaves a word of 64 bits.
- `Session.capacity_run`: **the main statement.**
-/

namespace FieldTree

/-- What the largest content needs, in whole blocks, and never less than a block. -/
def Config.ceiling (c : Config) : Nat := alignToBlock (max blockSize c.limit)

/-- More is asked for at first than the largest content may need. -/
def Config.Beyond (c : Config) : Prop := max blockSize c.limit < c.initialCapacity

instance (c : Config) : Decidable c.Beyond := inferInstanceAs (Decidable (_ < _))

/-- The configuration that a blob gets from its origin. -/
def Origin.config : Origin → Config
  | new => {}
  | create config => config
  | adopt config _ => config
  | json config _ => config

namespace Blob

variable {b b' : Blob} {config : Config}

/-! ## What is allocated -/

/-- What is allocated stays below the ceiling, or is what was asked for beyond it, from the start. -/
structure Bounded (b : Blob) : Prop where
  le_ceiling : ¬b.config.Beyond → b.capacity ≤ b.config.ceiling
  eq_initial : b.config.Beyond → b.capacity = alignToBlock b.config.initialCapacity

/-- Nothing but capacity and configuration matters. -/
theorem Bounded.of_eq (h : b.Bounded) (hconfig : b'.config = b.config) (hcapacity : b'.capacity = b.capacity) :
    b'.Bounded where
  le_ceiling := by
    rw [hconfig, hcapacity]
    exact h.le_ceiling
  eq_initial := by
    rw [hconfig, hcapacity]
    exact h.eq_initial

/-- **Room for a content that is allowed** keeps what is allocated below the ceiling. -/
theorem Bounded.reserve (h : b.Bounded) {n : Nat} (hn : n ≤ b.config.limit) : (b.reserve n).Bounded := by
  by_cases hroom : n ≤ b.capacity
  case pos => exact h.of_eq rfl (if_pos hroom)
  case neg =>
    have hgrown : (b.reserve n).capacity = alignToBlock n := if_neg hroom
    have hlimit : n ≤ max blockSize b.config.limit := Nat.le_trans hn (Nat.le_max_right _ _)
    refine ⟨fun _ => ?_, fun hbeyond => ?_⟩
    · rw [hgrown]
      exact alignToBlock_mono hlimit
    · -- a buffer beyond the ceiling has room for every content
      have hinitial := h.eq_initial hbeyond
      have hlarge : n ≤ b.capacity :=
        calc n
          _ ≤ max blockSize b.config.limit := hlimit
          _ ≤ b.config.initialCapacity := Nat.le_of_lt hbeyond
          _ ≤ alignToBlock b.config.initialCapacity := le_alignToBlock _
          _ = b.capacity := hinitial.symm
      exact absurd hlarge hroom

/-- What adoption allocates is what is asked for, if that is beyond the largest content. -/
theorem adoptedCapacity_of_beyond (hbeyond : config.Beyond) {n : Nat} (hn : n ≤ config.limit) :
    adoptedCapacity config n = alignToBlock config.initialCapacity := by
  have hblock : blockSize ≤ config.initialCapacity :=
    Nat.le_trans (Nat.le_max_left _ _) (Nat.le_of_lt hbeyond)
  have hlimit : config.limit ≤ config.initialCapacity :=
    Nat.le_trans (Nat.le_max_right _ _) (Nat.le_of_lt hbeyond)
  rw [adoptedCapacity, Nat.max_eq_right (Nat.le_trans hn hlimit), Nat.max_eq_left hblock]

theorem adoptedCapacity_le_ceiling (hmodest : ¬config.Beyond) {n : Nat} (hn : n ≤ config.limit) :
    adoptedCapacity config n ≤ config.ceiling := by
  have hlimit : n ≤ max blockSize config.limit := Nat.le_trans hn (Nat.le_max_right _ _)
  exact alignToBlock_mono (Nat.max_le.mpr ⟨Nat.max_le.mpr ⟨hlimit, Nat.not_lt.mp hmodest⟩, Nat.le_max_left _ _⟩)

/-- **Every blob is bounded**, whatever made it and whatever was done to it. -/
theorem invariant_bounded : Invariant Bounded where
  append := by
    intro b item _ h hfits
    rw [← stopOf_eq] at hfits
    exact (h.reserve hfits).of_eq (config_append _ _) (capacity_append _ _)
  patch := fun p _ h _ => h.of_eq (config_patch _ _ p) (capacity_patch _ _ p)
  withRootType := fun _ h _ => h.of_eq (config_withRootType _ _) (capacity_withRootType _ _)
  truncateTo := fun _ h _ _ _ => h.of_eq (config_truncateTo _ _) (capacity_truncateTo _ _)
  reserve := fun _ h hn => h.reserve hn
  reset := fun _ h => h.of_eq rfl rfl
  new := ⟨fun _ => by decide +kernel, fun h => absurd h (by decide +kernel)⟩
  create := by
    intro config b h
    unfold Blob.create at h
    dsimp only at h
    split at h
    · cases h
    · next hcapacity =>
      cases h
      -- what is allocated at first was compared with the largest content, so nothing beyond it is asked for
      have hle : max config.initialCapacity blockSize ≤ max blockSize config.limit := by
        rw [Nat.max_comm blockSize]
        exact Nat.not_lt.mp hcapacity
      refine ⟨fun _ => Nat.le_trans hle (le_alignToBlock _), fun hbeyond => ?_⟩
      exact absurd (Nat.le_trans (Nat.le_max_left _ _) hle) (Nat.not_le.mpr hbeyond)
  adopt := by
    intro config data b h
    obtain ⟨root, -, -, -, -, hlimit, -, rfl⟩ := adopt_eq_ok_iff.mp h
    -- adoption compares the data only, and allocates for whichever is larger
    exact ⟨fun hmodest => adoptedCapacity_le_ceiling hmodest hlimit,
      fun hbeyond => adoptedCapacity_of_beyond hbeyond hlimit⟩

/-- **What is allocated never becomes less**, and the configuration stays. -/
theorem preserved_capacity (n : Nat) (config : Config) :
    Preserved fun b => n ≤ b.capacity ∧ b.config = config where
  append := by
    rintro b item - ⟨hle, hconfig⟩ -
    rw [capacity_append, config_append]
    exact ⟨Nat.le_trans hle (b.le_capacityFor _).1, hconfig⟩
  patch := fun p _ h _ => by rwa [capacity_patch, config_patch]
  withRootType := fun _ h _ => by rwa [capacity_withRootType, config_withRootType]
  truncateTo := fun _ h _ _ _ => by rwa [capacity_truncateTo, config_truncateTo]
  reserve := fun _ h _ => ⟨Nat.le_trans h.1 (le_capacityFor _ _).1, h.2⟩
  reset := fun _ h => h

/-! ## More than the largest content -/

/-- A blob that is created is refused what is beyond its largest content. -/
theorem create_of_beyond (hbeyond : config.Beyond) :
    create config = .error (.sizeLimit ⟨config.initialCapacity, config.limit⟩) := by
  have hblock : blockSize ≤ config.initialCapacity :=
    Nat.le_trans (Nat.le_max_left _ _) (Nat.le_of_lt hbeyond)
  have hlarger : max config.limit blockSize < config.initialCapacity := by
    rw [Nat.max_comm]
    exact hbeyond
  unfold create
  dsimp only
  rw [Nat.max_eq_left hblock, if_pos hlarger]

/-- So is a blob that is made from a text, whatever the text is. -/
theorem ofJson_of_beyond (hbeyond : config.Beyond) (text : String) :
    (ofJson config text).1 = .error (.sizeLimit ⟨config.initialCapacity, config.limit⟩) := by
  rw [ofJson, create_of_beyond hbeyond]

/-- **Adoption allocates what is asked for**, however far it is beyond the largest content, and fails only where
    nothing so large can be allocated. -/
theorem adopt_of_beyond (hbeyond : config.Beyond) {data : Bytes}
    (h : adopt { config with initialCapacity := blockSize } data = .ok b) :
    adopt config data =
      if alignToBlock config.initialCapacity ≤ maxAllocation then
        .ok { b with capacity := alignToBlock config.initialCapacity, config := config }
      else .error (.allocation (alignToBlock config.initialCapacity)) := by
  obtain ⟨root, hroot, hcontainer, hlow, hraw, hlength, -, rfl⟩ := adopt_eq_ok_iff.mp h
  have hlimit : data.length ≤ config.limit := hlength
  have hcapacity := adoptedCapacity_of_beyond hbeyond hlimit
  split
  · next hallocation =>
    apply adopt_eq_ok_iff.mpr
    rw [hcapacity]
    exact ⟨root, hroot, hcontainer, hlow, hraw, hlimit, hallocation, rfl⟩
  · next hallocation =>
    rw [adoptedCapacity] at hcapacity
    simp only [adopt, hroot, hcontainer, Bool.not_true, Bool.false_eq_true, if_false,
      if_neg (Nat.not_lt.mpr hlow), if_neg (Nat.not_lt.mpr hraw), if_neg (Nat.not_lt.mpr hlimit), hcapacity,
      if_pos (Nat.not_le.mp hallocation)]

/-- An empty root is adopted under every configuration that allows its header. -/
theorem adopt_emptyContent (config : Config) (hlimit : headerSize ≤ config.limit)
    (hallocation : adoptedCapacity config headerSize ≤ maxAllocation) :
    adopt config emptyContent = .ok (ofContent emptyContent (adoptedCapacity config headerSize) config) := by
  have hroot : Header.ofBytes? emptyContent = some (.new .array headerSize) := by decide +kernel
  have hraw : (Header.new .array headerSize).rawLength = headerSize := by decide +kernel
  have hpadded : (Header.new .array headerSize).paddedLength = headerSize := by decide +kernel
  have hlength : emptyContent.length = headerSize := by decide +kernel
  have hkept : emptyContent.take headerSize ++ Bytes.zeros (headerSize - headerSize) = emptyContent := by
    decide +kernel
  apply adopt_eq_ok_iff.mpr
  refine ⟨.new .array headerSize, hroot, rfl, ?_⟩
  rw [hraw, hpadded, hlength, hkept]
  exact ⟨Nat.le_refl _, Nat.le_refl _, hlimit, hallocation, rfl⟩

/-! ## Words of 64 bits -/

/-- What any content needs fits a word. -/
theorem alignToBlock_lt {n : Nat} (hn : n ≤ config.limit) : alignToBlock n < 2 ^ 64 :=
  calc alignToBlock n
    _ ≤ alignToBlock maxLength := alignToBlock_mono (Nat.le_trans hn (Nat.min_le_right _ _))
    _ < 2 ^ 64 := by decide +kernel

/-- **What adoption allocates fits a word** unless almost all of one is asked for. -/
theorem adoptedCapacity_lt_iff {n : Nat} (hn : n ≤ config.limit) :
    adoptedCapacity config n < 2 ^ 64 ↔ config.initialCapacity + blockSize ≤ 2 ^ 64 := by
  have hcontent := alignToBlock_lt hn
  have hblock : alignToBlock blockSize < 2 ^ 64 := by decide +kernel
  simp only [adoptedCapacity, alignToBlock_max, Nat.max_lt, hcontent, hblock, true_and, and_true]
  unfold alignToBlock blockSize
  omega

/-- Nothing is adopted where what is asked for leaves a word. -/
theorem adopt_ne_ok_of_word (hword : 2 ^ 64 < config.initialCapacity + blockSize) (data : Bytes) (b : Blob) :
    adopt config data ≠ .ok b := by
  intro h
  obtain ⟨-, -, -, -, -, -, hallocation, -⟩ := adopt_eq_ok_iff.mp h
  have hasked : config.initialCapacity ≤ adoptedCapacity config data.length :=
    Nat.le_trans (Nat.le_trans (Nat.le_max_right _ _) (Nat.le_max_left _ _)) (le_alignToBlock _)
  have hlarge : maxAllocation < config.initialCapacity := by
    unfold maxAllocation
    unfold blockSize at hword
    omega
  exact absurd (Nat.le_trans hasked hallocation) (Nat.not_le.mpr hlarge)

end Blob

theorem Origin.config_make {origin : Origin} {b : Blob} (h : origin.make.1 = .ok b) :
    b.config = origin.config := by
  cases origin with
  | new =>
    cases h
    rfl
  | create config => rw [Blob.create_eq_ok h]; rfl
  | adopt config data =>
    simp only [Origin.make] at h
    split at h
    · cases h
    · next hadopt =>
      cases h
      obtain ⟨root, -, -, -, -, -, -, rfl⟩ := Blob.adopt_eq_ok_iff.mp hadopt
      rfl
  | json config text =>
    simp only [Origin.make, Blob.ofJson] at h
    split at h
    · cases h
    · next fresh hcreate =>
      split at h
      · cases h
      · cases h
        -- the text is written to a blob that was just created, which keeps its configuration
        have hfresh : fresh.config = config := by rw [Blob.create_eq_ok hcreate]; rfl
        exact (Blob.preserved_config config).decode true (Blob.sound_create hcreate) hfresh text

/-! ## Main statement -/

namespace Session

variable {P : Blob → Prop} {s : Session}

/-- What every change keeps is kept of one blob by every program of operations on it. -/
theorem blob_operations (hP : Blob.Preserved P) (hs : s.Sound) {i : Nat} (h : P (s.blob i))
    (program : List (Operation Place)) : P ((s.run (program.map (.perform i))).blob i) := by
  have hstep : ∀ (s : Session) (op : Operation Place), s.Sound ∧ P (s.blob i) → True →
      (s.step (.perform i op)).Sound ∧ P ((s.step (.perform i op)).blob i) := by
    rintro s op ⟨hs, h⟩ -
    refine ⟨hs.step _, ?_⟩
    rw [step]
    split
    · next op' b hop hb =>
      rw [blob_eq hb] at h
      rw [blob_perform hb]
      exact hP.run (hs.blobs b (List.mem_of_getElem? hb)) h op' (hs.places hop)
    · exact h
  exact (run_operations hstep (fun _ _ => trivial) ⟨hs, h⟩).2

/-- **The capacity of blobs under a configuration.** If the configuration asks for no more at first than the
    largest content may need, no blob ever outgrows the ceiling. If it asks for more, then creation and texts are
    refused, adoption is not, and what is adopted holds as much as was asked for, always. What is allocated never
    becomes less, and its computation fits a word unless almost all of one is asked for: adoption is stated where
    it fits, and nothing is adopted where it does not. -/
theorem capacity_run (config : Config) :
    (∀ (n : Nat) (history : List Step) (s : Session) (i : Nat) (b : Blob), (start n).run history = s →
      s.blob i = b → b.config = config →
        b.memory.bytes.length = b.capacity ∧
          (¬config.Beyond → b.capacity ≤ config.ceiling) ∧
          (config.Beyond → b.capacity = alignToBlock config.initialCapacity) ∧
          ∀ (program : List (Operation Place)) (after : Blob),
            (s.run (program.map (.perform i))).blob i = after →
              b.capacity ≤ after.capacity ∧ after.config = config) ∧
      (∀ (origin : Origin) (b : Blob), origin.config = config → origin.make.1 = .ok b → b.config = config) ∧
      (config.Beyond →
        Blob.create config = .error (.sizeLimit ⟨config.initialCapacity, config.limit⟩) ∧
          (∀ text, (Blob.ofJson config text).1 =
            .error (.sizeLimit ⟨config.initialCapacity, config.limit⟩)) ∧
          (config.initialCapacity + blockSize ≤ 2 ^ 64 → ∀ (data : Bytes) (b : Blob),
            Blob.adopt { config with initialCapacity := blockSize } data = .ok b →
              Blob.adopt config data =
                if alignToBlock config.initialCapacity ≤ maxAllocation then
                  .ok { b with capacity := alignToBlock config.initialCapacity, config := config }
                else .error (.allocation (alignToBlock config.initialCapacity))) ∧
          (2 ^ 64 < config.initialCapacity + blockSize → ∀ (data : Bytes) (b : Blob),
            Blob.adopt config data ≠ .ok b)) ∧
      ∀ n ≤ config.limit, alignToBlock n < 2 ^ 64 ∧
        (Blob.adoptedCapacity config n < 2 ^ 64 ↔ config.initialCapacity + blockSize ≤ 2 ^ 64) := by
  refine ⟨?_, ?_, ?_, fun n hn => ⟨Blob.alignToBlock_lt hn, Blob.adoptedCapacity_lt_iff hn⟩⟩
  · -- a blob of a session: its bound is an invariant of all runs, and the program behind it is one more run
    rintro n history s i b hs hb rfl
    have hsession : s.Sound := hs ▸ (Sound.start n).run history
    have hsound : b.Sound := hb ▸ hsession.blob i
    have hbounded : b.Bounded := by
      rw [← hb, ← hs]
      exact blob_run Blob.invariant_bounded n history i
    refine ⟨Buffer.length_memory hsound, hbounded.le_ceiling, hbounded.eq_initial, ?_⟩
    rintro program after rfl
    have hstart : b.capacity ≤ (s.blob i).capacity ∧ (s.blob i).config = b.config := by
      rw [hb]
      exact ⟨Nat.le_refl _, rfl⟩
    exact blob_operations (Blob.preserved_capacity b.capacity b.config) hsession hstart program
  · rintro origin b rfl hmake
    exact Origin.config_make hmake
  · -- more is asked for than the largest content may need: only adoption does not compare the two
    intro hbeyond
    exact ⟨Blob.create_of_beyond hbeyond, Blob.ofJson_of_beyond hbeyond,
      fun _ _ _ hmade => Blob.adopt_of_beyond hbeyond hmade, Blob.adopt_ne_ok_of_word⟩

/-- More is asked for at first than the largest content may need. -/
def sampleBeyond : Config := { initialCapacity := 8192, maxSize := 4096 }

/-- An empty root that is adopted. -/
def sampleLarge : List Step := [.make 0 (.adopt sampleBeyond Blob.emptyContent), .perform 0 (.putInt 70000)]

theorem capacity_run_sampleLarge :
    ∃ s b, (start 1).run sampleLarge = s ∧ s.blob 0 = b ∧ b.config = sampleBeyond ∧ sampleBeyond.Beyond ∧
      b.capacity = alignToBlock 8192 ∧
      b.capacity ≤ ((s.run ([.resize 4096, .reset].map (.perform 0))).blob 0).capacity ∧
      (∀ text, (Blob.ofJson sampleBeyond text).1 = .error (.sizeLimit ⟨8192, sampleBeyond.limit⟩)) ∧
      ∃ made, Blob.adopt { sampleBeyond with initialCapacity := blockSize } Blob.emptyContent = .ok made ∧
        Blob.adopt sampleBeyond Blob.emptyContent =
          .ok { made with capacity := alignToBlock 8192, config := sampleBeyond } := by
  obtain ⟨hreachable, -, hrefused, -⟩ := capacity_run sampleBeyond
  have hconfig : (((start 1).run sampleLarge).blob 0).config = sampleBeyond := by decide +kernel
  have hbeyond : sampleBeyond.Beyond := by decide
  obtain ⟨-, -, hcapacity, hprogram⟩ := hreachable 1 sampleLarge _ 0 _ rfl rfl hconfig
  obtain ⟨-, htexts, hadopted, -⟩ := hrefused hbeyond
  have hmade := Blob.adopt_emptyContent { sampleBeyond with initialCapacity := blockSize } (by decide)
    (by decide +kernel)
  refine ⟨_, _, rfl, rfl, hconfig, hbeyond, hcapacity hbeyond, (hprogram _ _ rfl).1, htexts, _, hmade, ?_⟩
  rw [hadopted (by decide) _ _ hmade, if_pos (by decide +kernel)]
  rfl

/-- The ceiling is no bound on what is allocated: a blob is adopted with twice as much. -/
theorem capacity_run_sampleAdopted :
    ∃ b, Blob.adopt sampleBeyond Blob.emptyContent = .ok b ∧ max blockSize sampleBeyond.limit = 4096 ∧
      sampleBeyond.initialCapacity = 8192 ∧ sampleBeyond.ceiling = 4096 ∧ b.capacity = 8192 ∧
      Blob.create sampleBeyond = .error (.sizeLimit ⟨8192, 4096⟩) :=
  ⟨_, Blob.adopt_emptyContent sampleBeyond (by decide) (by decide +kernel), by decide, rfl, by decide +kernel,
    by decide +kernel, Blob.create_of_beyond (by decide)⟩

end Session

end FieldTree
