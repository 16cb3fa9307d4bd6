import FieldTree.Command.Run
import FieldTree.Proofs.Capacity
import FieldTree.Proofs.Files
import FieldTree.Proofs.Json.Decoding

/-!
# Documents through Files

A text file is encoded into a blob file, and what the other commands show of that file is what there is to say of
the blob itself: its JSON text, its listing, or whether it matches a signature. The size that was allowed when the
blob was made is allowed when it is loaded.

## Architecture

- `Blob.length_content_ofJson`, `Blob.adopt_ofJson`: a blob from a text is no larger than allowed, and its content
  is adopted under the same configuration.
- `Command.run_encode`, `Command.run_inspect`: what a command line does to a tree of files.
- `Command.run_roundTrip`: **the main statement.**
-/

namespace FieldTree

/-! ## Blobs from texts -/

namespace Blob

open Json

variable {config : Config} {text : String} {b : Blob}

theorem length_content_ofJson (h : (ofJson config text).1 = .ok b) (hroom : headerSize ≤ config.limit) :
    b.content.length ≤ config.limit := by
  cases hcreate : create config with
  | error e =>
    rw [ofJson, hcreate] at h
    cases h
  | ok empty =>
    obtain ⟨v, hreads, -⟩ := existsUnique_reads (accepted_of_ofJson h)
    rw [content_ofJson hreads h]
    rcases (exists_ofJson_iff hreads hcreate).mp ⟨b, h⟩ with hvoid | hfits
    case inr => exact hfits
    case inl =>
      -- an empty container is its header alone
      rw [Value.document, Tree.length_encode_node, (Value.rootTrees_eq_nil_iff v).mpr hvoid]
      exact hroom

/-- **What was made of a text is adopted again**, under the configuration under which it was made. -/
theorem adopt_ofJson (h : (ofJson config text).1 = .ok b) (hroom : headerSize ≤ config.limit) :
    ∃ c, adopt config b.content = .ok c ∧ c.head = b.head := by
  have hmake : (Origin.json config text).make.1 = .ok b := h
  have hsound : b.Sound := Origin.make_sound (Prod.ext hmake rfl)
  have hconfig : b.config = config := Origin.config_make hmake
  have hfits : b.size + ([] : Bytes).length ≤ b.config.limit := by
    rw [List.length_nil, Nat.add_zero, ← hsound.length_content, hconfig]
    exact length_content_ofJson h hroom
  have hadopt := adopt_content hsound (invariant_allocatable.make hmake) hfits
  rw [List.append_nil, hconfig] at hadopt
  exact ⟨_, hadopt, rfl⟩

end Blob

/-! ## Commands -/

namespace Command

variable {t : FileTree} {input : String} {bytes : Bytes}

theorem readText_access {text : String} (hread : t.read input = .ok bytes) (htext : bytes.text? = some text) :
    FileTree.access.readText input t = (.ok text, t) := by
  change ((t.read input).bind Files.Access.asText, t) = _
  rw [hread, Except.bind, Files.Access.asText, htext]

/-- **Encoding a file** makes a blob of its text, and leaves the files as they are. -/
theorem encode_access {text : String} {config : Config} {b : Blob} (hread : t.read input = .ok bytes)
    (htext : bytes.text? = some text) (hb : (Blob.ofJson config text).1 = .ok b) :
    ∃ journal, encode FileTree.access config input t = ((.ok b, journal), t) := by
  obtain ⟨journal, hjson⟩ : ∃ journal, Blob.ofJson config text = (.ok b, journal) := ⟨_, Prod.ext hb rfl⟩
  refine ⟨journal ++ [b.listingNote], ?_⟩
  simp only [encode, bind, StateT.bind, readText_access hread htext, hjson]
  rfl

/-- **Loading a file** adopts its bytes, and what is shown is shown of the blob that comes of it. -/
theorem inspect_access {config : Config} {c : Blob} (hread : t.read input = .ok bytes)
    (hadopt : Blob.adopt config bytes = .ok c) (action : Action) :
    ∃ journal, inspect FileTree.access config input action t = ({ display c action with journal }, t) := by
  have hmake : (Origin.adopt config bytes).make = (.ok c, [.adopted bytes.length c.size]) := by
    rw [Origin.make, hadopt]
  have haccess : FileTree.access.read input t = (.ok bytes, t) := congrArg (·, t) hread
  have hload : load FileTree.access config input t =
      ((.ok c, [.reading input, .read bytes.length input, .adopted bytes.length c.size]), t) := by
    simp only [load, bind, StateT.bind, haccess, hmake]
    rfl
  exact ⟨_, by simp only [inspect, bind, StateT.bind, hload]; rfl⟩

/-- **Writing the output** makes directories, and a file with the bytes. -/
theorem writeOutput_access {path : String} {force : Bool} {made : FileTree} (h : t.Admits path force made)
    (bytes : Bytes) :
    ∃ after, writeOutput FileTree.access path bytes force t = (.ok (), after) ∧ after.read path = .ok bytes := by
  obtain ⟨after, hwrite⟩ := h.write bytes
  refine ⟨after, ?_, FileTree.read_write hwrite⟩
  have haccess : FileTree.access.write path bytes made = (.ok (), after) := by
    change FileTree.update (fun t => (t.write path bytes).mapError Files.WriteFault.notMade) made = _
    rw [FileTree.update, hwrite]
    rfl
  -- a file that is there is no obstacle
  have hfree : (!force && made.isPresent path) = false := by
    rcases h.free with hforce | habsent
    · rw [hforce]
      rfl
    · rw [habsent, Bool.and_false]
  have hpresent : FileTree.access.isPresent path made = (made.isPresent path, made) := rfl
  simp only [writeOutput, bind, StateT.bind, h.directories, hpresent, hfree, haccess, Bool.false_eq_true, if_false]
  rfl

/-! ## Signatures -/

/-- What is wrong with a signature has no further cause. -/
theorem causesOf_parse {signature : String} {e : BlobError} (h : Signature.parse signature = .error e) :
    causesOf e = [e.message] := by
  unfold Signature.parse at h
  split at h
  · cases h
    rfl
  · cases h

theorem exists_parse_of_validate {f : Field} {signature : String} (h : f.validate signature = true) :
    ∃ s, Signature.parse signature = .ok s := by
  unfold Field.validate at h
  split at h
  · next s hs => exact ⟨s, hs⟩
  · cases h

/-- What is shown of a blob is shown of its root. -/
theorem display_congr {b c : Blob} (h : c.head = b.head) (action : Action) : display c action = display b action := by
  cases action <;> simp only [display, h]

/-! ## Command lines -/

section

variable {path text : String} {n v : Nat} {b : Blob} {arguments : List String}

/-- **A command line that encodes** leaves a file with the content of the blob. -/
theorem run_encode {made : FileTree} {output : Option String} {force : Bool} (hread : t.read input = .ok bytes)
    (htext : bytes.text? = some text) (hb : (Blob.ofJson { maxSize := n } text).1 = .ok b)
    (harguments : Arguments.read arguments = .ok ⟨.encode input output force, v, n⟩)
    (hpath : output.getD (Path.withExtension input "blob") = path) (hadmits : t.Admits path force made) :
    ∃ journal after, run FileTree.access arguments t = ({ exit := 0, journal }, after) ∧
      after.read path = .ok b.content := by
  obtain ⟨journal, hblob⟩ := encode_access hread htext hb
  obtain ⟨after, hwrite, hwritten⟩ := writeOutput_access hadmits b.content
  refine ⟨journal ++ [.wroteFile b.content.length path], after, ?_, hwritten⟩
  simp only [run, harguments, perform, bind, StateT.bind, hblob, hpath, hwrite]
  rfl

/-- **Any other command line** shows the blob that is in the file, if there is one. -/
theorem run_inspect {c : Blob} {action : Action} (hread : t.read path = .ok b.content)
    (hadopt : Blob.adopt { maxSize := n } b.content = .ok c) (hhead : c.head = b.head)
    (harguments : Arguments.read arguments = .ok ⟨action, v, n⟩)
    (haction : ∀ config, perform FileTree.access config action = inspect FileTree.access config path action) :
    ∃ journal, run FileTree.access arguments t = ({ display b action with journal }, t) := by
  rw [run, harguments, ← display_congr hhead]
  dsimp only
  rw [haction]
  exact inspect_access hread hadopt action

end

/-! ## Main statement -/

/-- **What is encoded can be shown.** A text file of which a blob can be made is encoded into every file that may
    be written, which then holds the content of the blob. From then on, decoding prints the JSON text of the blob,
    listing prints its listing, and validation prints whether it matches a signature, if the signature is one. None
    of these changes a file. -/
theorem run_roundTrip {t made : FileTree} {input path text : String} {bytes : Bytes} {n v : Nat} {b : Blob}
    {output : Option String} {force : Bool} {arguments : List String} (hread : t.read input = .ok bytes)
    (htext : bytes.text? = some text) (hb : (Blob.ofJson { maxSize := n } text).1 = .ok b) (hn : 4 ≤ n)
    (harguments : Arguments.read arguments = .ok ⟨.encode input output force, v, n⟩)
    (hpath : output.getD (Path.withExtension input "blob") = path) (hadmits : t.Admits path force made) :
    ∃ journal after, run FileTree.access arguments t = ({ exit := 0, journal }, after) ∧
      after.read path = .ok b.content ∧
      (∀ arguments w pretty, Arguments.read arguments = .ok ⟨.decode path pretty, w, n⟩ →
        ∃ journal, run FileTree.access arguments after =
          ({ exit := 0, stdout := (if pretty then b.head.toPrettyJson else b.head.toJson) ++ "\n", journal },
            after)) ∧
      (∀ arguments w, Arguments.read arguments = .ok ⟨.dump path, w, n⟩ →
        ∃ journal, run FileTree.access arguments after = ({ exit := 0, stdout := b.head.dump, journal }, after)) ∧
      ∀ arguments w signature, Arguments.read arguments = .ok ⟨.validate path signature, w, n⟩ →
        (b.head.validate signature = true → ∃ journal, run FileTree.access arguments after =
          ({ exit := 0, stdout := "ok\n", journal }, after)) ∧
        (∀ s, Signature.parse signature = .ok s → b.head.validate signature = false →
          ∃ journal, run FileTree.access arguments after =
            ({ exit := 1, stdout := "mismatch\n", journal }, after)) ∧
        ∀ e, Signature.parse signature = .error e → ∃ journal, run FileTree.access arguments after =
          ({ exit := 1, report := some (Failure.text ⟨"Invalid signature", [e.message]⟩), journal }, after) := by
  have hroom : headerSize ≤ Config.limit { maxSize := n } := Nat.le_min.mpr ⟨hn, by decide⟩
  -- encoding leaves a file whose bytes are adopted as a blob with the same root; from here on only that file is read
  obtain ⟨journal, after, hrun, hwritten⟩ := run_encode hread htext hb harguments hpath hadmits
  obtain ⟨c, hadopt, hhead⟩ := Blob.adopt_ofJson hb hroom
  refine ⟨journal, after, hrun, hwritten, ?_, ?_, ?_⟩
  case refine_1 => exact fun _ _ _ h => run_inspect hwritten hadopt hhead h fun _ => rfl
  case refine_2 => exact fun _ _ h => run_inspect hwritten hadopt hhead h fun _ => rfl
  case refine_3 =>
    intro _ _ signature h
    obtain ⟨journal, hvalidate⟩ := run_inspect hwritten hadopt hhead h fun _ => rfl
    -- the signature is read before anything is matched, so there are three outcomes
    refine ⟨fun hvalid => ⟨journal, ?_⟩, fun s hs hinvalid => ⟨journal, ?_⟩, fun e he => ⟨journal, ?_⟩⟩
    · obtain ⟨s, hs⟩ := exists_parse_of_validate hvalid
      simp only [hvalidate, display, hs, hvalid, if_true]
    · simp only [hvalidate, display, hs, hinvalid, Bool.false_eq_true, if_false]
    · simp only [hvalidate, display, he, causesOf_parse he, Failure.result]

/-- A text file, and nothing else. -/
def sampleFiles : FileTree := ⟨[(["in.json"], .file (.ofText "[1]"))]⟩

/-- The same with a directory. -/
def sampleMade : FileTree := ⟨[(["out"], .directory), (["in.json"], .file (.ofText "[1]"))]⟩

theorem admits_sampleFiles : sampleFiles.Admits "out/doc.blob" false sampleMade where
  directories := by
    have hparent : Path.parent "out/doc.blob" = "out" := by decide +kernel
    have habove : Path.ancestors "out" = ["out"] := by decide +kernel
    rw [Files.Access.makeDirectories, hparent, if_neg (by decide), habove]
    rfl
  free := .inr (by decide +kernel)
  noSlash := by decide +kernel
  target := ⟨["out"], "doc.blob", by decide +kernel, by decide +kernel, by decide +kernel⟩

theorem run_roundTrip_sampleFiles :
    ∃ b journal after, (Blob.ofJson { maxSize := 64 } "[1]").1 = .ok b ∧
      run FileTree.access ["encode", "--max-size=64", "-o", "out/doc.blob", "in.json"] sampleFiles =
        ({ exit := 0, journal }, after) ∧
      after.read "out/doc.blob" = .ok b.content ∧
      (∃ journal, run FileTree.access ["--max-size", "64", "decode", "out/doc.blob"] after =
        ({ exit := 0, stdout := b.head.toJson ++ "\n", journal }, after)) ∧
      ∃ journal, run FileTree.access ["validate", "out/doc.blob", "i", "--max-size=64"] after =
        ({ exit := 0, stdout := "ok\n", journal }, after) := by
  have hok : (Blob.ofJson { maxSize := 64 } "[1]").1.isOk = true := by decide +kernel
  cases hb : (Blob.ofJson { maxSize := 64 } "[1]").1 with
  | error e =>
    rw [hb] at hok
    cases hok
  | ok b =>
    -- what cannot be shown of `b` is computed for the text that it is made of
    have hvalid : b.head.validate "i" = true := by
      have hall : (Blob.ofJson { maxSize := 64 } "[1]").1.toOption.all (·.head.validate "i") = true := by
        decide +kernel
      rw [hb] at hall
      exact hall
    obtain ⟨journal, after, hrun, hread, hdecode, -, hvalidate⟩ :=
      run_roundTrip (t := sampleFiles) (show sampleFiles.read "in.json" = .ok (.ofText "[1]") by decide +kernel)
        (Bytes.text?_ofText "[1]") hb (by decide)
        (show Arguments.read ["encode", "--max-size=64", "-o", "out/doc.blob", "in.json"] =
          .ok ⟨.encode "in.json" (some "out/doc.blob") false, 0, 64⟩ by decide +kernel)
        rfl admits_sampleFiles
    have hargs : Arguments.read ["--max-size", "64", "decode", "out/doc.blob"] =
        .ok ⟨.decode "out/doc.blob" false, 0, 64⟩ := by decide +kernel
    have hargs' : Arguments.read ["validate", "out/doc.blob", "i", "--max-size=64"] =
        .ok ⟨.validate "out/doc.blob" "i", 0, 64⟩ := by decide +kernel
    exact ⟨b, journal, after, rfl, hrun, hread, hdecode _ 0 false hargs, (hvalidate _ 0 "i" hargs').1 hvalid⟩

end Command

end FieldTree
