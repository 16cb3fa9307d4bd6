import FieldTree.Field.Reading
import FieldTree.Proofs.AppendLaw
import FieldTree.Proofs.Truncation

/-!
# Stored Texts Read Back

A text is stored with a zero byte behind it, and read up to the first zero byte that there is. No character but zero has
a zero byte in UTF-8, so that what is read of a stored text is its front up to the first zero character, and always
UTF-8. Of bytes that come from elsewhere the same front is read, if it is UTF-8. Neither looks beyond the length that
the field states.

## Architecture

- `Field.data_of_ofBytes?`: the payload is what stands between the header and the stated length.
- `Field.exists_ofBytes?_of_take_eq`: what stands behind the stated length is not seen.
- `Field.ReadsText`: what a field of text at the front of some bytes reads as.
- `Blob.Sound.putsText`: what is put into a blob reads back.
- `Session.putString_text`: **stored texts read back**, in every blob that a program can make.
-/

namespace FieldTree

/-! ## The payload -/

namespace Field

variable {bytes bytes' : Bytes} {f : Field} {n : Nat}

theorem data_cut (h : f.rawLength ≤ n) : (f.cut n).data = f.data := by
  have hle : f.header.dataLength ≤ n - headerSize := Nat.sub_le_sub_right h headerSize
  simp only [data, cut, List.take_take, Nat.min_eq_left hle]

/-- **The payload stands between the header and the stated length**, as far as the bytes reach. -/
theorem data_of_ofBytes? (h : ofBytes? bytes = some f) : f.data = (bytes.take f.rawLength).drop headerSize := by
  have hle : f.header.dataLength ≤ bodyRoom f.header := Nat.sub_le_sub_right (le_alignUp _) headerSize
  obtain ⟨header, hheader⟩ := Header.exists_ofBytes? (headerSize_le_of_ofBytes? h)
  have hsplit := Header.eq_toBytes_append hheader
  rw [hsplit, ofBytes?_header] at h
  cases h
  rw [List.drop_take, data, List.take_take, Nat.min_eq_left hle]
  rfl

/-- **What stands behind the stated length is not seen.** -/
theorem exists_ofBytes?_of_take_eq (h : ofBytes? bytes = some f)
    (hsame : bytes'.take (max f.rawLength headerSize) = bytes.take (max f.rawLength headerSize)) :
    ∃ g, ofBytes? bytes' = some g ∧ g.header = f.header ∧ g.data = f.data := by
  -- the same field stands in front of both once they are cut, and the cut leaves header and payload
  have hcut := congrArg ofBytes? hsame
  rw [ofBytes?_take _ (Nat.le_max_right _ _), ofBytes?_take _ (Nat.le_max_right _ _), h, Option.map_some] at hcut
  obtain ⟨g, hg, hfront⟩ := Option.map_eq_some_iff.mp hcut
  have hheader := congrArg header hfront
  have hdata := congrArg data hfront
  rw [header_cut, header_cut] at hheader
  have hraw : g.rawLength = f.rawLength := congrArg Header.rawLength hheader
  rw [data_cut (hraw ▸ Nat.le_max_left _ _), data_cut (Nat.le_max_left _ _)] at hdata
  exact ⟨g, hg, hheader, hdata⟩

/-! ## Reading -/

theorem text_congr {g : Field} (hheader : g.header = f.header) (hdata : g.data = f.data) : g.text = f.text := by
  have htype : g.type = f.type := congrArg Header.type hheader
  rw [text, text, htype, hdata]

/-- A payload that is not UTF-8 up to its first zero byte reads as no text at all. -/
theorem text_of_not_ofText (h : ∀ text, Bytes.ofText text ≠ f.data.takeWhile (· != 0)) : f.text = "" := by
  have hnone : (Bytes.text? (f.data.takeWhile (· != 0))) = none := by
    rw [Option.eq_none_iff_forall_ne_some]
    intro text htext
    exact h text (Bytes.text?_eq_some_iff.mp htext)
  simp [text, hnone]

/-- What the field of text at the front of some bytes reads as: the text that its payload spells up to the first zero
    byte, or nothing; and the same wherever the bytes are the same up to the stated length. -/
structure ReadsText (bytes : Bytes) (f : Field) : Prop where
  data : f.data = (bytes.take f.rawLength).drop headerSize
  spelled : ∀ text, Bytes.ofText text = f.data.takeWhile (· != 0) → f.text = text
  unspelled : (∀ text, Bytes.ofText text ≠ f.data.takeWhile (· != 0)) → f.text = ""
  alone : ∀ bytes', bytes'.take (max f.rawLength headerSize) = bytes.take (max f.rawLength headerSize) →
    ∃ g, ofBytes? bytes' = some g ∧ g.text = f.text

theorem readsText (h : ofBytes? bytes = some f) (htype : f.type = .string) : f.ReadsText bytes where
  data := data_of_ofBytes? h
  spelled _ := text_of_ofText htype
  unspelled := text_of_not_ofText
  alone bytes' hsame := by
    obtain ⟨g, hg, hheader, hdata⟩ := exists_ofBytes?_of_take_eq h hsame
    exact ⟨g, hg, text_congr hheader hdata⟩

end Field

/-! ## Main statement -/

/-- A field of text was added that has the bytes of `text` and a zero byte, and reads as the front of `text`. -/
structure Blob.PutsText (b : Blob) (text : String) (f : Field) : Prop where
  adds : b.Adds (.putString text) f
  type : f.type = .string
  data : f.data = Bytes.ofText text ++ [0]
  front : f.text = .ofList (text.toList.takeWhile (· != '\x00'))
  whole : '\x00' ∉ text.toList → f.text = text

/-- **What is put into a blob reads back.** -/
theorem Blob.Sound.putsText {b : Blob} (hb : b.Sound) {text : String}
    (hroom : b.stopOf (text.utf8ByteSize + 1) ≤ b.config.limit) : b.PutsText text (Item.ofText text).field := by
  have hlength : (Item.ofText text).payload.length = text.utf8ByteSize + 1 := List.length_append
  have hitem : (Operation.putString text : Operation Nat).item? = some (.ofText text) := rfl
  obtain ⟨hadds, htype, hdata, -⟩ := Operation.adds_item hb hitem (hlength.symm ▸ hroom)
  exact ⟨hadds, htype, hdata, Field.text_of_data htype hdata, Field.text_of_noZero htype hdata⟩

/-- **Stored texts read back.** In every blob that a program can make and that has the room, a text is stored as its
    bytes and a zero byte, and reads back up to its first zero character. Bytes from elsewhere that are a field of text
    read as what they spell up to the first zero byte, or as nothing if that is not UTF-8. -/
theorem Session.putString_text (n : Nat) (history : List Step) (i : Nat) {b : Blob}
    (hb : ((start n).run history).blob i = b) :
    (∀ text : String, b.stopOf (text.utf8ByteSize + 1) ≤ b.config.limit → ∃ f, b.PutsText text f) ∧
    ∀ bytes f, Field.ofBytes? bytes = some f → f.type = .string → f.ReadsText bytes := by
  have hsound : b.Sound := hb ▸ ((Sound.start n).run history).blob i
  exact ⟨fun text hroom => ⟨_, hsound.putsText hroom⟩, fun bytes f => Field.readsText⟩

namespace Session

/-- A text of five bytes with a zero among them. -/
def sampleSevered : String := "a\u00e9\x00b"

/-- A field of text whose stated length ends inside a character. -/
def sampleHalved : Bytes := [0x02, 0, 0, 6, 0x61, 0xc3, 0xa9, 0]

/-- What is read of the first is two characters, and of the second nothing, whatever follows it. -/
theorem putString_text_sampleRagged :
    ∃ b, ((start 1).run sampleRagged).blob 0 = b ∧
      (∃ f, b.Adds (.putString sampleSevered) f ∧ f.data = [0x61, 0xc3, 0xa9, 0, 0x62, 0] ∧ f.text = "a\u00e9") ∧
      ∃ f, Field.ofBytes? sampleHalved = some f ∧ f.data = [0x61, 0xc3] ∧ f.text = "" ∧
        ∃ g, Field.ofBytes? (sampleHalved.take 6 ++ [0x80, 0x80]) = some g ∧ g.text = "" := by
  have hroom : (((start 1).run sampleRagged).blob 0).stopOf (sampleSevered.utf8ByteSize + 1) ≤
      (((start 1).run sampleRagged).blob 0).config.limit := by decide +kernel
  obtain ⟨hput, hread⟩ := putString_text 1 sampleRagged 0 rfl
  obtain ⟨f, hputs⟩ := hput _ hroom
  have hhalved := hread sampleHalved ⟨.ofWord 0x02000006, [0x61, 0xc3, 0xa9, 0]⟩ rfl rfl
  have hempty : (⟨.ofWord 0x02000006, [0x61, 0xc3, 0xa9, 0]⟩ : Field).text = "" := by
    apply hhalved.unspelled
    intro text h
    have hsome := Bytes.text?_eq_some_iff.mpr h
    have hnone : Bytes.text? [0x61, 0xc3] = none := by decide +kernel
    exact absurd (hnone.symm.trans hsome) (by simp)
  obtain ⟨g, hg, hsame⟩ := hhalved.alone (sampleHalved.take 6 ++ [0x80, 0x80]) rfl
  exact ⟨_, rfl, ⟨f, hputs.adds, hputs.data, hputs.front⟩, _, rfl, rfl, hempty, g, hg, hsame.trans hempty⟩

end Session

end FieldTree
