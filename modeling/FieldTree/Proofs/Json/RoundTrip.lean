import FieldTree.Proofs.Json.Scanning

/-!
# From Blobs to JSON Texts and Back

A blob that holds no real numbers is rendered as a text that builds the same content again, in the same
configuration and in either layout.

## Architecture

- `Built.render_eq`: a built blob is rendered as the text of its document.
- `Blob.ofJson_toJson`: **the main statement.**
-/

namespace FieldTree.Json

variable {d : Document} {b : Blob}

/-- **A built blob is rendered as the text of its document.** -/
theorem Built.render_eq (h : Built d b) (hdepth : d.depth ≤ maxDepth) (style : Style) :
    render style b.head = String.ofList (d.print style style.indent) := by
  obtain ⟨hcontainer, blank, hblank, -, hwrite⟩ := h.writeAll_eq
  obtain ⟨-, -, hhead, hmax⟩ := hblank.of_writeAll hwrite
  have htree : Tree.node d.value.rootBracket d.value.rootTrees = d.value.tree :=
    Value.document_eq_tree hcontainer
  rw [htree] at hhead hmax
  rw [render, hhead, d.renderAt_field style style.indent hdepth hmax]

/-- A text with the value of a built blob's document builds the same content. -/
theorem Built.ofJson_of_reads (h : Built d b) {text : String} (hreads : Reads text d.value) :
    ∃ b', (Blob.ofJson b.config text).1 = .ok b' ∧ b'.content = b.content := by
  obtain ⟨-, blank, hblank, ⟨empty, hcreate⟩, hwrite⟩ := h.writeAll_eq
  obtain ⟨-, hconfig, -⟩ := hblank.of_writeAll hwrite
  have hrooted := d.value.rooted_blank (Blob.Fresh.create hcreate).blank
  -- what fitted once fits again, since the configuration is the same
  have hfits := hblank.writeAll_eq_ok_iff.mp ⟨b, hwrite⟩
  have hagain : ∃ b', Tree.writeAll (d.value.rooted empty) d.value.rootTrees = .ok b' := by
    rw [hrooted.writeAll_eq_ok_iff, Value.config_rooted, config_create hcreate]
    exact hfits
  obtain ⟨b', hwrite'⟩ := hagain
  refine ⟨b', ?_, ?_⟩
  · rw [hconfig]
    exact (Json.ofJson_of_reads hreads hcreate).mpr hwrite'
  · rw [hrooted.content_writeAll hwrite', hblank.content_writeAll hwrite]

end FieldTree.Json

namespace FieldTree.Blob

open Json

/-- **Rendering a built blob and decoding the text gives the same content**, on one line and with one element
    per line. -/
theorem ofJson_toJson {d : Document} {b : Blob} (hbuilt : Built d b) (hdepth : d.depth < maxDepth) :
    (∃ b', (ofJson b.config b.head.toJson).1 = .ok b' ∧ b'.content = b.content) ∧
      ∃ b', (ofJson b.config b.head.toPrettyJson).1 = .ok b' ∧ b'.content = b.content := by
  have hround : ∀ style : Style, ∃ b', (ofJson b.config (render style b.head)).1 = .ok b' ∧
      b'.content = b.content := by
    intro style
    rw [hbuilt.render_eq (Nat.le_of_lt hdepth) style]
    exact hbuilt.ofJson_of_reads (d.reads_print style style.indent hdepth)
  exact ⟨hround {}, hround { pretty := true }⟩

/-- An object with characters of every kind of escape, and the least integer. -/
def sampleElement : Document :=
  .object [(⟨"k\"\n\x01/", by decide +kernel⟩, .array [.int Int64.minValue, .bool true, .object []]),
    (⟨"", by decide +kernel⟩, .text ⟨"\u00e9\\\u2028", by decide +kernel⟩)]

/-- The object is written to a new array that has just enough room for it. -/
theorem exists_built_sampleElement : ∃ b, Built (.array [sampleElement]) b := by
  have hok : (sampleElement.write (ofContent emptyContent blockSize { maxSize := 68 })).isOk = true := by
    decide +kernel
  cases hwrite : sampleElement.write (ofContent emptyContent blockSize { maxSize := 68 }) with
  | error limit => rw [hwrite] at hok; cases hok
  | ok b =>
    have hcreate : create { maxSize := 68 } = .ok (ofContent emptyContent blockSize { maxSize := 68 }) := rfl
    exact ⟨b, .element sampleElement (.create hcreate) hwrite⟩

theorem ofJson_toJson_sampleElement :
    ∃ b, Built (.array [sampleElement]) b ∧ (Document.array [sampleElement]).depth < maxDepth ∧
      (∃ b', (ofJson b.config b.head.toJson).1 = .ok b' ∧ b'.content = b.content) ∧
      ∃ b', (ofJson b.config b.head.toPrettyJson).1 = .ok b' ∧ b'.content = b.content := by
  obtain ⟨b, hbuilt⟩ := exists_built_sampleElement
  have hdepth : (Document.array [sampleElement]).depth < maxDepth := by decide
  exact ⟨b, hbuilt, hdepth, ofJson_toJson hbuilt hdepth⟩

end FieldTree.Blob
