import FieldTree.Proofs.Json.Reading

/-!
# Decoding JSON Texts

A text that has a value makes a blob exactly where the value's document fits, and the content of the blob is
then the encoding of the document.

## Architecture

- `Value.rooted_blank`: the root is empty and of the right type when the first field is written.
- `ofJson_of_reads`, `head_ofJson`, `content_ofJson`: which blob is made.
- `exists_ofJson_iff`: of which values one is made.
- `Blob.ofJson_document`: **the main statement**, for every accepted text.
-/

namespace FieldTree.Json

variable {text : String} {config : Config} {b empty : Blob} {v : Value}

/-- The root has the brackets of the value before anything is written under it. -/
theorem Value.rooted_blank (v : Value) (h : empty.Blank .square) : (v.rooted empty).Blank v.rootBracket := by
  cases v with
  | null | bool | number | text => exact h
  | array vs => exact h.withRootType .square
  | object ms => exact h.withRootType .brace

@[simp] theorem Value.config_rooted (v : Value) (b : Blob) : (v.rooted b).config = b.config := by
  unfold Value.rooted
  split
  · exact Blob.config_withRootType _ _
  · rfl

theorem Value.rootTrees_eq_nil_iff (v : Value) : v.rootTrees = [] ↔ v.isVoid = true := by
  cases v with
  | null | bool | number | text => simp [rootTrees, isVoid]
  | array vs => cases vs <;> simp [rootTrees, elementTrees, isVoid]
  | object ms => rcases ms with _ | ⟨⟨name, v⟩, ms⟩ <;> simp [rootTrees, memberTrees, isVoid]

/-- A new blob has the configuration it was made with. -/
theorem config_create (h : Blob.create config = .ok empty) : empty.config = config := by
  unfold Blob.create at h
  dsimp only at h
  split at h
  · cases h
  · cases h; rfl

/-- **A text is decoded by writing what is under the root of its document.** -/
theorem ofJson_of_reads (hreads : Reads text v) (hcreate : Blob.create config = .ok empty) :
    (Blob.ofJson config text).1 = .ok b ↔ Tree.writeAll (v.rooted empty) v.rootTrees = .ok b := by
  obtain ⟨haccepted, htokens⟩ := hreads
  have hrange : ∀ token ∈ v.tokens, token.InRange := htokens ▸ scan_inRange .value [] (.ofText text)
  -- the tokens are written as the fields under the root, up to the first refusal
  have hgoes := writeTokens_document v hrange htokens empty
  rw [Blob.ofJson, hcreate]
  simp only [decode, haccepted, Option.or_none]
  generalize writeTokens true [] empty (Scan.ofText text).tokens = written at hgoes ⊢
  cases hwrite : Tree.writeAll (v.rooted empty) v.rootTrees with
  | error limit =>
    rw [hwrite] at hgoes
    obtain ⟨fault, hfault⟩ := hgoes
    simp [hfault]
  | ok b' =>
    rw [hwrite] at hgoes
    obtain ⟨hblob, hfault⟩ := hgoes
    simp [hblob, hfault]

/-- What stops the writing of tokens is a field that does not fit. -/
theorem cause_writeTokens (fillsRoot : Bool) (outer : OpenFields) (b : Blob) (tokens : List (Token × Position))
    {fault : Fault} (h : (writeTokens fillsRoot outer b tokens).fault? = some fault) :
    ∃ limit, fault.cause = .refused limit := by
  fun_induction writeTokens fillsRoot outer b tokens with
  | case1 => cases h
  | case2 outer b token refusal rest _ ih => exact ih h
  | case3 outer b token refusal rest item _ _ ih => exact ih h
  | case4 outer b token refusal rest item _ _ limit _ =>
    obtain rfl := Option.some.inj h
    exact ⟨limit, rfl⟩
  | case5 outer b token refusal rest item _ _ _ note d ih => exact ih h

/-- **The fault of a text is that of its writing, or else that of its scan.** -/
theorem fault?_decode (fillsRoot : Bool) (b : Blob) (text : String) :
    (decode fillsRoot b text).fault? =
      (writeTokens fillsRoot [] b (Scan.ofText text).tokens).fault?.or (Scan.ofText text).fault? := by
  unfold decode
  dsimp only
  split
  · next hneither => rw [hneither, (Option.or_eq_none_iff.mp hneither).1]
  · next hsome => exact hsome.symm

/-- A text of which a blob was made is accepted. -/
theorem accepted_of_ofJson (h : (Blob.ofJson config text).1 = .ok b) : (Scan.ofText text).fault? = none := by
  unfold Blob.ofJson at h
  split at h
  · cases h
  · next empty _ =>
    dsimp only at h
    split at h
    · cases h
    · next hnone =>
      rw [fault?_decode] at hnone
      exact (Option.or_eq_none_iff.mp hnone).2

/-- **A new blob is the field of its value's document.** -/
theorem head_ofJson (hreads : Reads text v) (h : (Blob.ofJson config text).1 = .ok b) :
    b.Formed ∧ b.head = v.document.field ∧ v.document.encode.length ≤ maxLength := by
  cases hcreate : Blob.create config with
  | error e =>
    rw [Blob.ofJson, hcreate] at h
    cases h
  | ok empty =>
    have hblank := v.rooted_blank (Blob.Fresh.create hcreate).blank
    obtain ⟨hformed, -, hhead, hmax⟩ := hblank.of_writeAll ((ofJson_of_reads hreads hcreate).mp h)
    exact ⟨hformed, hhead, hmax⟩

/-- **A blob is made exactly of what fits.** A container without elements is there before anything is written. -/
theorem exists_ofJson_iff (hreads : Reads text v) (hcreate : Blob.create config = .ok empty) :
    (∃ b, (Blob.ofJson config text).1 = .ok b) ↔ v.isVoid = true ∨ v.document.encode.length ≤ config.limit := by
  have hblank := v.rooted_blank (Blob.Fresh.create hcreate).blank
  simp only [ofJson_of_reads hreads hcreate]
  rw [hblank.writeAll_eq_ok_iff, Value.rootTrees_eq_nil_iff, Value.config_rooted, config_create hcreate]
  rfl

/-- The content of a new blob is the encoding of its value's document. -/
theorem content_ofJson (hreads : Reads text v) (h : (Blob.ofJson config text).1 = .ok b) :
    b.content = v.document.encode := by
  obtain ⟨hformed, hhead, hmax⟩ := head_ofJson hreads h
  rw [hformed.head_eq] at hhead
  rw [hformed.content_eq, Tree.encode_eq_bytes _ hmax, ← hhead]
  rfl

end FieldTree.Json

namespace FieldTree.Blob

open Json

/-- **Decoding builds exactly the value of the text, and refuses exactly what does not fit.** -/
theorem ofJson_document {text : String} {config : Config} {empty : Blob}
    (haccepted : (Scan.ofText text).fault? = none) (hcreate : create config = .ok empty) :
    ∃ v, (Reads text v ∧ ∀ w, Reads text w → w = v) ∧
      ((∃ b, (ofJson config text).1 = .ok b) ↔
        v.isVoid = true ∨ v.document.encode.length ≤ config.limit) ∧
      ∀ b, (ofJson config text).1 = .ok b → b.content = v.document.encode := by
  obtain ⟨v, hreads, hunique⟩ := existsUnique_reads haccepted
  exact ⟨v, ⟨hreads, hunique⟩, exists_ofJson_iff hreads hcreate, fun _ hb => content_ofJson hreads hb⟩

/-- An object with a name that comes twice, a container inside a container, and an escape. -/
def sampleText : String := "\x7b\"k\":[300,null,\x7b\x7d],\"k\":\"\\u00e9\"\x7d"

theorem ofJson_document_sampleText :
    (Scan.ofText sampleText).fault? = none ∧
      create { maxSize := 300 } = .ok (ofContent emptyContent blockSize { maxSize := 300 }) ∧
      ∃ v, (Reads sampleText v ∧ ∀ w, Reads sampleText w → w = v) ∧
        ((∃ b, (ofJson { maxSize := 300 } sampleText).1 = .ok b) ↔
          v.isVoid = true ∨ v.document.encode.length ≤ Config.limit { maxSize := 300 }) ∧
        ∀ b, (ofJson { maxSize := 300 } sampleText).1 = .ok b → b.content = v.document.encode :=
  ⟨by decide +kernel, rfl, ofJson_document (by decide +kernel) rfl⟩

end FieldTree.Blob
