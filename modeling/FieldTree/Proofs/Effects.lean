import FieldTree.Proofs.Commands

/-!
# What Commands Do to Files

A command is judged by what it leaves of the files that were there before it ran. Nothing is assumed of the file
system but what each operation by itself is known to do: looking changes nothing, making a directory takes the
place of nothing, and a write concerns the one place to which its path leads. Links, missing permissions and full
disks are all allowed for, since an operation may fail whenever it likes, and a write that fails may leave any
content behind.

## Architecture

- `Files.System`: a file system, with what its operations do; `FileTree.system` is one.
- `Files.Within`: a relation between the states before and after a step, kept from step to step.
- `System.Grown`: nothing but new directories, which is what `makeDirectories` leaves.
- `System.Fate`: what becomes of one place when a file is written to a path.
- `Command.Unencodable`: the inputs of which no blob is made.
- `Command.run_frame`: **the main statement**, for every file system and every command line.
-/

namespace FieldTree

namespace Files

/-! ## File systems -/

/-- A file system with states `σ`, in which files and directories are told apart by `ι`. Several paths may lead to
    the same place, and a path may lead elsewhere once directories were made. -/
structure System (σ ι : Type) where
  access : Access (StateM σ)
  /-- what is at a place -/
  node? : σ → ι → Option FileTree.Node
  /-- the place to which a path leads -/
  target? : σ → String → Option ι
  read_state (path : String) (s : σ) : (access.read path s).2 = s
  isPresent_state (path : String) (s : σ) : (access.isPresent path s).2 = s
  isDirectory_state (path : String) (s : σ) : (access.isDirectory path s).2 = s
  makeDirectory_node? (path : String) (s : σ) (i : ι) :
    node? (access.makeDirectory path s).2 i = node? s i ∨
      node? s i = none ∧ node? (access.makeDirectory path s).2 i = some .directory
  /-- a write may leave a file at the place of its path, and never in place of a directory -/
  write_node? (path : String) (bytes : Bytes) (s : σ) (i : ι) :
    node? (access.write path bytes s).2 i = node? s i ∨
      target? (access.write path bytes s).2 path = some i ∧ node? s i ≠ some .directory ∧
        ∃ now, node? (access.write path bytes s).2 i = some (.file now)
  /-- where a path names nothing, a write to it takes the place of nothing -/
  write_of_absent (path : String) (bytes : Bytes) (s : σ) (habsent : (access.isPresent path s).1 = false) (i : ι)
    (hfound : node? s i ≠ none) : node? (access.write path bytes s).2 i = node? s i

/-! ## Steps -/

section

variable {σ α β : Type} {R : σ → σ → Prop}

/-- Whatever state a step is taken in, the state that it leaves is related to that. -/
def Within (R : σ → σ → Prop) (step : StateM σ α) : Prop := ∀ s, R s (step s).2

theorem Within.pure (hrefl : ∀ s, R s s) (a : α) : Within R (Pure.pure a : StateM σ α) := hrefl

theorem bind_fst (step : StateM σ α) (next : α → StateM σ β) (s : σ) :
    ((step >>= next) s).1 = (next (step s).1 (step s).2).1 := rfl

theorem bind_snd (step : StateM σ α) (next : α → StateM σ β) (s : σ) :
    ((step >>= next) s).2 = (next (step s).1 (step s).2).2 := rfl

/-- What comes after a step that changes nothing starts from the same state. -/
theorem Within.snd_bind {step : StateM σ α} (h : Within Eq step) (next : α → StateM σ β) (s : σ) :
    ((step >>= next) s).2 = (next (step s).1 s).2 := by
  change (next (step s).1 (step s).2).2 = _
  rw [← h s]

/-- One step after the other. -/
theorem Within.bind {step : StateM σ α} (h : Within R step) (htrans : ∀ s s' s'', R s s' → R s' s'' → R s s'')
    {next : α → StateM σ β} (hnext : ∀ a, Within R (next a)) : Within R (step >>= next) :=
  fun s => htrans _ _ _ (h s) (hnext _ _)

end

namespace System

variable {σ ι : Type} (system : System σ ι) {s s' : σ}

/-! ## Directories -/

/-- Nothing is different, but for directories where nothing was. -/
def Grown (s s' : σ) : Prop :=
  ∀ i, system.node? s' i = system.node? s i ∨ system.node? s i = none ∧ system.node? s' i = some .directory

variable {system}

theorem Grown.refl (s : σ) : system.Grown s s := fun _ => .inl rfl

theorem Grown.trans (s s' s'' : σ) (h : system.Grown s s') (h' : system.Grown s' s'') : system.Grown s s'' := by
  intro i
  rcases h i with hsame | ⟨hnone, hmade⟩
  case inl =>
    rw [← hsame]
    exact h' i
  case inr =>
    -- a directory that was made stays
    rcases h' i with hsame' | ⟨hnone', -⟩
    · exact .inr ⟨hnone, hsame'.trans hmade⟩
    · rw [hmade] at hnone'
      cases hnone'

variable (system)

theorem ensureDirectory_grown (path : String) : Within system.Grown (system.access.ensureDirectory path) := by
  have hmake : Within system.Grown (system.access.makeDirectory path) := system.makeDirectory_node? path
  have hlook : Within system.Grown (system.access.isDirectory path) := by
    intro s
    rw [system.isDirectory_state]
    exact Grown.refl s
  refine hmake.bind Grown.trans fun answer => ?_
  split
  · refine hlook.bind Grown.trans fun found => ?_
    split <;> exact Within.pure Grown.refl _
  · exact Within.pure Grown.refl _

theorem ensureChain_grown (paths : List String) : Within system.Grown (system.access.ensureChain paths) := by
  induction paths with
  | nil => exact Within.pure Grown.refl _
  | cons path above ih =>
    refine (system.ensureDirectory_grown path).bind Grown.trans fun answer => ?_
    split
    · -- there is nothing that the directory could lie in
      refine ih.bind Grown.trans fun answer => ?_
      split
      · exact Within.pure Grown.refl _
      · exact system.ensureDirectory_grown path
    · exact Within.pure Grown.refl _

/-- **Making a directory with those above it** makes directories, also where it fails half way. -/
theorem makeDirectories_grown (path : String) : Within system.Grown (system.access.makeDirectories path) := by
  unfold Access.makeDirectories
  split
  · exact Within.pure Grown.refl _
  · exact system.ensureChain_grown _

/-! ## Looking -/

theorem within_read (path : String) : Within Eq (system.access.read path) :=
  fun s => (system.read_state path s).symm

theorem within_isPresent (path : String) : Within Eq (system.access.isPresent path) :=
  fun s => (system.isPresent_state path s).symm

theorem readText_fst (path : String) (s : σ) :
    (system.access.readText path s).1 = (system.access.read path s).1.bind Access.asText := rfl

theorem within_readText (path : String) : Within Eq (system.access.readText path) :=
  (system.within_read path).bind (fun _ _ _ => Eq.trans) fun _ => Within.pure Eq.refl _

/-! ## Written files -/

variable {system}

/-- What becomes of one place when a file is written to a path: it stays as it is, or nothing was there and now
    there is a directory, or the path leads to it and there is a file now, which only by force takes the place of
    another. -/
inductive Fate (system : System σ ι) (path : String) (force : Bool) (s after : σ) (i : ι) : Prop
  | kept (hsame : system.node? after i = system.node? s i)
  | made (hnone : system.node? s i = none) (hmade : system.node? after i = some .directory)
  | written {now : Bytes} (hplace : system.target? after path = some i) (hfile : system.node? s i ≠ some .directory)
      (hfree : force = true ∨ system.node? s i = none) (hnow : system.node? after i = some (.file now))

theorem Grown.fate (h : system.Grown s s') (path : String) (force : Bool) (i : ι) :
    system.Fate path force s s' i := by
  rcases h i with hsame | ⟨hnone, hmade⟩
  · exact .kept hsame
  · exact .made hnone hmade

/-- **A write behind new directories.** Where it is not forced, the path named nothing. -/
theorem Grown.fate_write (h : system.Grown s s') {path : String} {force : Bool} (bytes : Bytes)
    (hfree : force = true ∨ (system.access.isPresent path s').1 = false) (i : ι) :
    system.Fate path force s (system.access.write path bytes s').2 i := by
  by_cases hsame : system.node? (system.access.write path bytes s').2 i = system.node? s' i
  case pos =>
    rcases h i with hbefore | ⟨hnone, hmade⟩
    · exact .kept (hsame.trans hbefore)
    · exact .made hnone (hsame.trans hmade)
  case neg =>
    obtain ⟨hplace, hfile, now, hnow⟩ := (system.write_node? path bytes s' i).resolve_left hsame
    -- no directory was made where a file is written
    have hbefore : system.node? s' i = system.node? s i := by
      rcases h i with hbefore | ⟨-, hmade⟩
      · exact hbefore
      · exact absurd hmade hfile
    refine .written hplace (hbefore ▸ hfile) (hfree.imp_right fun habsent => ?_) hnow
    by_contra hfound
    exact hsame (system.write_of_absent path bytes s' habsent i (hbefore ▸ hfound))

/-- A file that is there keeps its content where nothing is forced. -/
theorem Fate.file_kept {path : String} {i : ι} (h : system.Fate path false s s' i) {bytes : Bytes}
    (hfile : system.node? s i = some (.file bytes)) : system.node? s' i = some (.file bytes) := by
  cases h with
  | kept hsame => exact hsame.trans hfile
  | made hnone hmade =>
    rw [hfile] at hnone
    cases hnone
  | written hplace hfile' hfree hnow =>
    rcases hfree with hforce | hnone
    · cases hforce
    · rw [hfile] at hnone
      cases hnone

/-- A file that has changed, or is new, is the one to which the path leads. -/
theorem Fate.target {path : String} {force : Bool} {i : ι} (h : system.Fate path force s s' i)
    (hchanged : system.node? s' i ≠ system.node? s i) {bytes : Bytes}
    (hfile : system.node? s i = some (.file bytes) ∨ system.node? s' i = some (.file bytes)) :
    system.target? s' path = some i := by
  cases h with
  | kept hsame => exact absurd hsame hchanged
  | made hnone hmade =>
    -- a new directory is no file
    rw [hnone, hmade] at hfile
    rcases hfile with hfile | hfile <;> cases hfile
  | written hplace => exact hplace

end System

end Files

/-! ## Trees in memory -/

namespace FileTree

variable {t : FileTree}

/-- A change that fails leaves the tree as it is. -/
theorem snd_update {ε : Type} (change : FileTree → Except ε FileTree) (t : FileTree) :
    (update change t).2 = (change t).toOption.getD t := by
  unfold update
  cases change t <;> rfl

theorem state_makeDirectory (path : String) (t : FileTree) :
    (access.makeDirectory path t).2 = (t.makeDirectory path).toOption.getD t :=
  snd_update (·.makeDirectory path) t

theorem state_write (path : String) (bytes : Bytes) (t : FileTree) :
    (access.write path bytes t).2 = (t.write path bytes).toOption.getD t := by
  refine (snd_update (fun t => (t.write path bytes).mapError Files.WriteFault.notMade) t).trans ?_
  -- the stage of a fault is no part of the tree
  cases t.write path bytes <;> rfl

/-- A directory is made where nothing was. -/
theorem makeDirectory_eq_ok {path : String} {after : FileTree} (h : t.makeDirectory path = .ok after) :
    ∃ place, t.node? place = none ∧ after = t.set place .directory := by
  unfold makeDirectory at h
  split at h
  · cases h
  · next place _ =>
    split at h
    · cases h
    · next habsent =>
      cases h
      exact ⟨place, Option.not_isSome_iff_eq_none.mp habsent, rfl⟩

theorem makeDirectory_node? (path : String) (t : FileTree) (place : List String) :
    (access.makeDirectory path t).2.node? place = t.node? place ∨
      t.node? place = none ∧ (access.makeDirectory path t).2.node? place = some .directory := by
  rw [state_makeDirectory]
  cases hmake : t.makeDirectory path with
  | error fault => exact .inl rfl
  | ok after =>
    obtain ⟨target, hnone, rfl⟩ := makeDirectory_eq_ok hmake
    have htarget : t.node? target ≠ some .directory := by simp [hnone]
    have hnode := node?_set t (ne_nil_of_node?_ne htarget) .directory place
    by_cases hplace : place = target
    case pos => exact .inr ⟨hplace ▸ hnone, hnode.trans (if_pos hplace)⟩
    case neg => exact .inl (hnode.trans (if_neg hplace))

theorem write_node? (path : String) (bytes : Bytes) (t : FileTree) (place : List String) :
    (access.write path bytes t).2.node? place = t.node? place ∨
      ((access.write path bytes t).2.locate path).toOption = some place ∧ t.node? place ≠ some .directory ∧
        ∃ now, (access.write path bytes t).2.node? place = some (.file now) := by
  rw [state_write]
  cases hwrite : t.write path bytes with
  | error fault => exact .inl rfl
  | ok after =>
    obtain ⟨target, -, hlocate, -, htarget, rfl⟩ := write_eq_ok hwrite
    have hnode := node?_set t (ne_nil_of_node?_ne htarget) (.file bytes) place
    by_cases hplace : place = target
    case pos =>
      refine .inr ⟨?_, hplace ▸ htarget, bytes, hnode.trans (if_pos hplace)⟩
      exact (congrArg Except.toOption hlocate).trans (congrArg some hplace.symm)
    case neg => exact .inl (hnode.trans (if_neg hplace))

theorem write_of_absent (path : String) (bytes : Bytes) (t : FileTree)
    (habsent : (access.isPresent path t).1 = false) (place : List String) (hfound : t.node? place ≠ none) :
    (access.write path bytes t).2.node? place = t.node? place := by
  rw [state_write]
  cases hwrite : t.write path bytes with
  | error fault => rfl
  | ok after =>
    obtain ⟨target, hlocate, -, -, htarget, rfl⟩ := write_eq_ok hwrite
    have hnode := node?_set t (ne_nil_of_node?_ne htarget) (.file bytes) place
    by_cases hplace : place = target
    case pos =>
      -- the path would name what is at the place
      have hpresent := isPresent_of_write hwrite hlocate (hplace ▸ hfound)
      cases hpresent.symm.trans habsent
    case neg => exact hnode.trans (if_neg hplace)

/-- The trees in memory as a file system. -/
def system : Files.System FileTree (List String) where
  access := access
  node? := node?
  target? t path := (t.locate path).toOption
  read_state _ _ := rfl
  isPresent_state _ _ := rfl
  isDirectory_state _ _ := rfl
  makeDirectory_node? := makeDirectory_node?
  write_node? := write_node?
  write_of_absent := write_of_absent

end FileTree

/-! ## Commands -/

namespace Command

open Files

section

variable {σ ι : Type} (system : System σ ι)

/-- Nothing can be encoded: the input cannot be read, is not a text, is not JSON, or has a value with something in it
    that is larger than allowed. -/
inductive Unencodable (found : Except Files.Fault Bytes) (config : Config) : Prop
  | unreadable {fault : Files.Fault} (hfound : found = .error fault)
  | notText {bytes : Bytes} (hfound : found = .ok bytes) (htext : bytes.text? = none)
  | notJson {bytes : Bytes} {text : String} {fault : Json.Fault} (hfound : found = .ok bytes)
      (htext : bytes.text? = some text) (hfault : (Json.Scan.ofText text).fault? = some fault)
  | tooLarge {bytes : Bytes} {text : String} {v : Json.Value} (hfound : found = .ok bytes)
      (htext : bytes.text? = some text) (hreads : Json.Reads text v) (hcontent : v.isVoid = false)
      (hlarge : config.limit < v.document.encode.length)

theorem within_encode (config : Config) (input : String) : Within Eq (encode system.access config input) := by
  refine (system.within_readText input).bind (fun _ _ _ => Eq.trans) fun answer => ?_
  split
  · exact Within.pure Eq.refl _
  · split <;> exact Within.pure Eq.refl _

theorem within_load (config : Config) (input : String) : Within Eq (load system.access config input) := by
  refine (system.within_read input).bind (fun _ _ _ => Eq.trans) fun answer => ?_
  split
  · exact Within.pure Eq.refl _
  · split <;> exact Within.pure Eq.refl _

theorem within_inspect (config : Config) (input : String) (action : Action) :
    Within Eq (inspect system.access config input action) := by
  refine (within_load system config input).bind (fun _ _ _ => Eq.trans) fun answer => ?_
  split <;> exact Within.pure Eq.refl _

/-! ### Inputs -/

/-- **A blob is encoded of a text in the input**, which can be read. -/
theorem exists_of_encode {config : Config} {input : String} {s : σ} {b : Blob}
    (h : (encode system.access config input s).1.1 = .ok b) :
    ∃ bytes text, (system.access.read input s).1 = .ok bytes ∧ bytes.text? = some text ∧
      (Blob.ofJson config text).1 = .ok b := by
  -- three things can go wrong: reading, the text, and the decoding; where none does, this is the blob
  unfold encode at h
  rw [bind_fst, system.readText_fst] at h
  cases hread : (system.access.read input s).1 with
  | error fault =>
    rw [hread] at h
    cases h
  | ok bytes =>
    rw [hread] at h
    cases htext : bytes.text? with
    | none =>
      rw [Except.bind, Files.Access.asText, htext] at h
      cases h
    | some text =>
      rw [Except.bind, Files.Access.asText, htext] at h
      dsimp only at h
      cases hjson : Blob.ofJson config text with
      | mk made journal =>
        rw [hjson] at h
        cases made with
        | error e => cases h
        | ok b' =>
          cases h
          exact ⟨bytes, text, rfl, htext, congrArg Prod.fst hjson⟩

theorem Unencodable.ofJson_ne {config : Config} {bytes : Bytes} {text : String}
    (h : Unencodable (.ok bytes) config) (htext : bytes.text? = some text) (b : Blob) :
    (Blob.ofJson config text).1 ≠ .ok b := by
  intro hb
  cases h with
  | unreadable hfound => cases hfound
  | notText hfound hnone =>
    cases hfound
    rw [htext] at hnone
    cases hnone
  | notJson hfound htext' hfault =>
    cases hfound
    cases htext.symm.trans htext'
    rw [Json.accepted_of_ofJson hb] at hfault
    cases hfault
  | tooLarge hfound htext' hreads hcontent hlarge =>
    cases hfound
    cases htext.symm.trans htext'
    -- under a configuration that makes an empty blob, only the length decides
    cases hcreate : Blob.create config with
    | error e =>
      rw [Blob.ofJson, hcreate] at hb
      cases hb
    | ok empty =>
      rcases (Json.exists_ofJson_iff hreads hcreate).mp ⟨b, hb⟩ with hvoid | hfits
      · cases hcontent.symm.trans hvoid
      · exact absurd hfits (Nat.not_le.mpr hlarge)

/-- **An input of which nothing can be encoded** is no more than looked at. -/
theorem Unencodable.perform_state {system : System σ ι} {config : Config} {input : String} {output : Option String}
    {force : Bool} {s : σ} (h : Unencodable (system.access.read input s).1 config) :
    (perform system.access config (.encode input output force) s).2 = s := by
  refine ((within_encode system config input).snd_bind _ s).trans ?_
  rcases hencode : (encode system.access config input s).1 with ⟨failure | b, journal⟩
  case error => rfl
  case ok =>
    obtain ⟨bytes, text, hread, htext, hb⟩ := exists_of_encode system (congrArg Prod.fst hencode)
    rw [hread] at h
    exact absurd hb (h.ofJson_ne htext b)

/-! ### Outputs -/

/-- **Writing the output** makes directories, and changes at most one file. -/
theorem writeOutput_fate (path : String) (bytes : Bytes) (force : Bool) (s : σ) (i : ι) :
    system.Fate path force s (writeOutput system.access path bytes force s).2 i := by
  -- up to the write, nothing has happened but new directories
  have hgrown := system.makeDirectories_grown (Path.parent path) s
  unfold writeOutput
  rw [bind_snd]
  generalize system.access.makeDirectories (Path.parent path) s = made at hgrown ⊢
  obtain ⟨answer, s'⟩ := made
  dsimp only at hgrown ⊢
  cases answer with
  | error fault => exact hgrown.fate path force i
  | ok =>
    dsimp only
    rw [(system.within_isPresent path).snd_bind]
    by_cases hrefused : (!force && (system.access.isPresent path s').1) = true
    case pos =>
      rw [if_pos hrefused]
      exact hgrown.fate path force i
    case neg =>
      have hfree : force = true ∨ (system.access.isPresent path s').1 = false := by
        simpa [or_iff_not_imp_left] using hrefused
      -- the write has its effect whether it fails or not, and nothing comes behind it
      have hfate := hgrown.fate_write bytes hfree i
      rw [if_neg hrefused, bind_snd]
      generalize system.access.write path bytes s' = wrote at hfate ⊢
      obtain ⟨answer, after⟩ := wrote
      cases answer with
      | error fault => exact hfate
      | ok => exact hfate

theorem perform_encode_fate (config : Config) (input : String) (output : Option String) (force : Bool) (s : σ)
    (i : ι) : system.Fate (output.getD (Path.withExtension input "blob")) force s
      (perform system.access config (.encode input output force) s).2 i := by
  unfold perform
  dsimp only
  generalize output.getD (Path.withExtension input "blob") = path
  rw [(within_encode system config input).snd_bind]
  rcases (encode system.access config input s).1 with ⟨failure | b, journal⟩
  case error => exact .kept rfl
  case ok =>
    have hfate := writeOutput_fate system path b.content force s i
    dsimp only
    rw [bind_snd]
    generalize writeOutput system.access path b.content force s = wrote at hfate ⊢
    obtain ⟨answer, after⟩ := wrote
    cases answer with
    | error failure => exact hfate
    | ok => exact hfate

end

/-! ### Main statement -/

/-- **A command changes no file that it was not told to write.** Whatever is in a file system and whatever its
    operations answer, a command line that does not encode leaves everything as it is. One that encodes changes or
    makes no file but the one to which the path of its output leads, and otherwise makes directories where nothing
    was. Unless it is forced, every file that was there keeps its content. And where nothing can be encoded, it is
    not even a directory that is made. -/
theorem run_frame {σ ι : Type} (system : System σ ι) (s : σ) (arguments : List String) :
    ((∀ input output force v n, Arguments.read arguments ≠ .ok ⟨.encode input output force, v, n⟩) →
        (run system.access arguments s).2 = s) ∧
      ∀ input output force v n path after, Arguments.read arguments = .ok ⟨.encode input output force, v, n⟩ →
        output.getD (Path.withExtension input "blob") = path → (run system.access arguments s).2 = after →
        (∀ i, system.Fate path force s after i) ∧
          (∀ i bytes, system.node? after i ≠ system.node? s i →
            system.node? s i = some (.file bytes) ∨ system.node? after i = some (.file bytes) →
            system.target? after path = some i) ∧
          (force = false → ∀ i bytes, system.node? s i = some (.file bytes) →
            system.node? after i = some (.file bytes)) ∧
          (Unencodable (system.access.read input s).1 { maxSize := n } → after = s) := by
  unfold run
  constructor
  case left =>
    intro hother
    cases hread : Arguments.read arguments with
    | error stop => rfl
    | ok invocation =>
      obtain ⟨action, v, n⟩ := invocation
      -- the other actions only read
      cases action with
      | encode input output force => exact absurd hread (hother input output force v n)
      | decode | dump | validate => exact (within_inspect system _ _ _ s).symm
  case right =>
    intro input output force v n path after hread hpath hafter
    rw [hread] at hafter
    -- what becomes of each place gives all of what is said of files
    have hfate : ∀ i, system.Fate path force s after i := by
      rw [← hpath, ← hafter]
      exact perform_encode_fate system { maxSize := n } input output force s
    refine ⟨hfate, fun i _ hchanged hfile => (hfate i).target hchanged hfile, ?_, fun hinput => ?_⟩
    · rintro rfl i _
      exact (hfate i).file_kept
    · rw [← hafter]
      exact hinput.perform_state

/-- A text, a file where its blob would be written, and half a text. -/
def sampleFolder : FileTree :=
  ⟨[(["doc.json"], .file (.ofText "[1]")), (["doc.blob"], .file [1, 2, 3]),
    (["half.json"], .file (.ofText "[1"))]⟩

theorem run_frame_sampleFolder :
    (run FileTree.access ["dump", "doc.blob"] sampleFolder).2 = sampleFolder ∧
      (run FileTree.access ["encode", "doc.json"] sampleFolder).2.node? ["doc.blob"] = some (.file [1, 2, 3]) ∧
      (run FileTree.access ["encode", "--force", "half.json", "-o", "new/doc.blob"] sampleFolder).2 =
        sampleFolder := by
  have hdump : Arguments.read ["dump", "doc.blob"] = .ok ⟨.dump "doc.blob", 0, 10000000⟩ := by decide +kernel
  have hencode : Arguments.read ["encode", "doc.json"] = .ok ⟨.encode "doc.json" none false, 0, 10000000⟩ := by
    decide +kernel
  have hforce : Arguments.read ["encode", "--force", "half.json", "-o", "new/doc.blob"] =
      .ok ⟨.encode "half.json" (some "new/doc.blob") true, 0, 10000000⟩ := by decide +kernel
  have hhalf : (Json.Scan.ofText "[1").fault?.isSome = true := by decide +kernel
  obtain ⟨fault, hfault⟩ := Option.isSome_iff_exists.mp hhalf
  have hinput : Unencodable (FileTree.system.access.read "half.json" sampleFolder).1 { maxSize := 10000000 } :=
    .notJson (show sampleFolder.read "half.json" = .ok (.ofText "[1") by decide +kernel)
      (Bytes.text?_ofText "[1") hfault
  obtain ⟨-, hwritten⟩ := run_frame FileTree.system sampleFolder ["encode", "doc.json"]
  obtain ⟨-, hforced⟩ :=
    run_frame FileTree.system sampleFolder ["encode", "--force", "half.json", "-o", "new/doc.blob"]
  obtain ⟨-, -, hkept, -⟩ := hwritten _ _ _ _ _ _ _ hencode rfl rfl
  obtain ⟨-, -, -, hsame⟩ := hforced _ _ _ _ _ _ _ hforce rfl rfl
  refine ⟨(run_frame FileTree.system sampleFolder ["dump", "doc.blob"]).1 ?_, ?_, hsame hinput⟩
  · intro input output force v n h
    cases hdump.symm.trans h
  · exact hkept rfl ["doc.blob"] [1, 2, 3] (by decide +kernel)

end Command

end FieldTree
