import FieldTree.Proofs.Json.Printing
import FieldTree.Proofs.Numeral.Integer
import FieldTree.Proofs.Texts

/-!
# Stored Integers Read Back

An integer is stored in the narrowest of four widths whose two's complement holds it, so that integers of 64 bits have
one field each. A field from elsewhere may be wider than it has to be. Its payload is read with the sign that its own
width gives it; what is read fits that width, and is stored again in no more bytes.

Integers may also stand in texts. There they have no bound, and are read as the nearest one of 64 bits.

## Architecture

- `IsNarrowest`, `Item.isNarrowest_ofInt`: the width in which an integer is stored.
- `Bytes.toInt_eq_signExtend`, `Bytes.fits_toInt`: the integer that bytes spell, and what width holds it.
- `Blob.Sound.putsInt`: what is put into a blob reads back.
- `Session.putInt_canonical`: **integers round-trip at the narrowest width**, in every blob that a program can make.
- `Session.textInt_saturates`: **integers in texts saturate.**
-/

namespace FieldTree

open Json.Value (Fits)

/-! ## Widths -/

/-- A width holds what a narrower one holds. -/
theorem Json.Value.Fits.mono {m n : Nat} {v : Int} (h : Fits m v) (hle : m ≤ n) : Fits n v := by
  have hexponent : 8 * m - 1 ≤ 8 * n - 1 := by omega
  have hpow : (2 : Int) ^ (8 * m - 1) ≤ 2 ^ (8 * n - 1) := by
    exact_mod_cast Nat.pow_le_pow_right (by decide : 0 < 2) hexponent
  obtain ⟨hlow, hhigh⟩ := h
  constructor <;> omega

/-- The narrowest of the widths of integers that holds `v`. -/
structure IsNarrowest (width : Nat) (v : Int) : Prop where
  mem : width ∈ [1, 2, 4, 8]
  fits : Fits width v
  least : ∀ other ∈ [1, 2, 4, 8], Fits other v → width ≤ other

/-- A number has one narrowest width. -/
theorem IsNarrowest.eq {m n : Nat} {v : Int} (hm : IsNarrowest m v) (hn : IsNarrowest n v) : m = n :=
  Nat.le_antisymm (hm.least n hn.mem hn.fits) (hn.least m hm.mem hm.fits)

/-- What the width before does not hold needs the next. -/
theorem least_of_not_fits (before : Nat) {width : Nat} {v : Int} (h : ¬Fits before v)
    (hnext : ∀ other ∈ [1, 2, 4, 8], other ≤ before ∨ width ≤ other) :
    ∀ other ∈ [1, 2, 4, 8], Fits other v → width ≤ other := by
  intro other hmem hother
  rcases hnext other hmem with hle | hle
  · exact absurd (hother.mono hle) h
  · exact hle

/-- **An integer is stored in the narrowest width that holds it.** -/
theorem Item.isNarrowest_ofInt {v : Int} (h : Fits 8 v) : IsNarrowest (Item.ofInt v).payload.length v := by
  have hlength : (Item.ofInt v).payload.length = (Item.narrowest v).2 := Bytes.length_ofInt _ _
  have hone : ∀ other ∈ [1, 2, 4, 8], 1 ≤ other := by decide
  rw [hlength, Item.narrowest]
  split
  case isTrue h1 => exact ⟨by decide, h1, fun other hmem _ => hone other hmem⟩
  case isFalse h1 =>
    split
    case isTrue h2 => exact ⟨by decide, h2, least_of_not_fits 1 h1 (by decide)⟩
    case isFalse h2 =>
      split
      case isTrue h4 => exact ⟨by decide, h4, least_of_not_fits 2 h2 (by decide)⟩
      case isFalse h4 => exact ⟨by decide, h, least_of_not_fits 4 h4 (by decide)⟩

/-! ## Two's complement -/

namespace Bytes

variable {bytes : Bytes} {width : Nat}

/-- **Bytes are read with the sign that their width gives them.** -/
theorem toInt_eq_signExtend (hlength : bytes.length = width) (h : width ≤ 8) :
    bytes.toInt = ((BitVec.ofNat (8 * width) bytes.toNat).signExtend 64).toInt := by
  have hpow : 256 ^ width = 2 ^ (8 * width) := (Nat.pow_mul 2 8 width).symm
  rw [BitVec.toInt_signExtend_of_le (Nat.mul_le_mul_left 8 h), BitVec.toInt_ofNat', toInt, hlength, hpow]

/-- What bytes spell has a two's complement of as many bytes. -/
theorem fits_toInt (hlength : bytes.length = width) (h : 0 < width) : Fits width bytes.toInt := by
  -- the bounds of a balanced remainder are half of the modulus, which is the weight of the sign bit
  have hpow : 256 ^ width = 2 * 2 ^ (8 * width - 1) := by
    rw [← Nat.pow_succ', ← Nat.pow_mul 2 8]
    congr 1
    omega
  have hpos : 0 < 256 ^ width := Nat.pow_pos (by decide)
  have hlow := Int.le_bmod (x := bytes.toNat) hpos
  have hhigh := Int.bmod_lt (x := bytes.toNat) hpos
  rw [hpow] at hlow hhigh
  push_cast at hlow hhigh
  rw [toInt, hlength, hpow]
  constructor <;> omega

end Bytes

/-! ## Fields of integers -/

/-- A field of an integer type that is `width` bytes wide was added, and reads as `v`. -/
structure Blob.PutsInt (b : Blob) (v : Int) (width : Nat) (f : Field) : Prop where
  adds : b.Adds (.putInt v) f
  isInteger : f.type.isInteger = true
  fixedSize? : f.type.fixedSize? = some width
  length : f.data.length = width
  rawLength : f.rawLength = headerSize + width
  int : f.int = v
  truth : f.truth = true ↔ v ≠ 0

theorem FieldType.isFloat_of_isInteger {t : FieldType} (h : t.isInteger = true) : t.isFloat = false := by
  cases t with
  | int8 | int16 | int32 | int64 => rfl
  | invalid | binary | string | float32 | float64 | array | table | bool => cases h

theorem FieldType.mem_of_fixedSize? {t : FieldType} {width : Nat} (h : t.fixedSize? = some width) :
    width ∈ [1, 2, 4, 8] := by
  cases t with
  | invalid | binary | string | array | table => cases h
  | int8 | int16 | int32 | int64 | float32 | float64 | bool => cases h; decide

theorem FieldType.bounds_of_fixedSize? {t : FieldType} {width : Nat} (h : t.fixedSize? = some width) :
    0 < width ∧ width ≤ 8 := by
  have hbounds : ∀ n ∈ [1, 2, 4, 8], 0 < n ∧ n ≤ 8 := by decide
  exact hbounds width (mem_of_fixedSize? h)

/-- **What is put into a blob reads back.** -/
theorem Blob.Sound.putsInt {b : Blob} (hb : b.Sound) {v : Int} (hv : Fits 8 v)
    (hroom : b.stopOf (Item.ofInt v).payload.length ≤ b.config.limit) :
    b.PutsInt v (Item.ofInt v).payload.length (Item.ofInt v).field := by
  obtain ⟨hadds, hholds⟩ := Operation.adds_item hb (rfl : (Operation.putInt v).item? = _) hroom
  obtain ⟨hinteger, hread⟩ := Json.toInt_payload_ofInt hv
  rw [← hholds.type] at hinteger
  -- the type is that of an integer with the width of the payload, which is how the number is read
  have hsize : (Item.ofInt v).field.type.fixedSize? = some (Item.ofInt v).field.data.length := by
    rw [hholds.type, hholds.data]
    exact (Item.ofInt_payload_length v).symm
  have hint : (Item.ofInt v).field.int = v := by
    rw [Json.int_of_fixedSize hsize (FieldType.isFloat_of_isInteger hinteger), hholds.data, hread]
  exact {
    adds := hadds
    isInteger := hinteger
    fixedSize? := hholds.data ▸ hsize
    length := congrArg List.length hholds.data
    rawLength := hholds.rawLength
    int := hint
    truth := by simp [Field.truth, hint] }

section Complete

variable {g : Field} {width : Nat}

/-- A payload that is complete is read with the sign that the width of its type gives it. -/
theorem Field.int_eq_signExtend (hsize : g.type.fixedSize? = some width) (hfloat : g.type.isFloat = false)
    (hdata : width ≤ g.data.length) :
    g.int = ((BitVec.ofNat (8 * width) (Bytes.toNat (g.data.take width))).signExtend 64).toInt := by
  have hlength : (g.data.take width).length = width := List.length_take_of_le hdata
  have hwidth := FieldType.bounds_of_fixedSize? hsize
  rw [Field.int_of_complete hsize hfloat hdata, Bytes.toInt_eq_signExtend hlength hwidth.2]

theorem Field.fits_int (hsize : g.type.fixedSize? = some width) (hfloat : g.type.isFloat = false)
    (hdata : width ≤ g.data.length) : Fits width g.int := by
  have hlength : (g.data.take width).length = width := List.length_take_of_le hdata
  have hwidth := FieldType.bounds_of_fixedSize? hsize
  rw [Field.int_of_complete hsize hfloat hdata]
  exact Bytes.fits_toInt hlength hwidth.1

/-- A field with a complete payload is no shorter than one that is as wide as its type. -/
theorem Field.le_rawLength (hpos : 0 < width) (hdata : width ≤ g.data.length) : headerSize + width ≤ g.rawLength := by
  have hle : g.data.length ≤ g.rawLength - headerSize := List.length_take_le _ _
  omega

end Complete

/-! ## Integers in texts -/

namespace Field

variable {f : Field}

theorem int_of_string (htype : f.type = .string) : f.int = Numeral.leadingInt f.text.toList := by
  simp only [int, htype]

/-- A field of text reads as the integer that its text starts with, or as the nearest one of 64 bits. -/
theorem int_of_startsInteger (htype : f.type = .string) {sign : Int} {radix : Nat} {ds : List Nat}
    (h : Numeral.StartsInteger f.text.toList sign radix ds) :
    f.int = max (-2 ^ 63) (min (2 ^ 63 - 1) (sign * Nat.ofDigits radix ds.reverse)) := by
  rw [int_of_string htype, h.leadingInt_eq, Numeral.clamp64]

/-- The decimal text of an integer reads as that integer. -/
theorem int_of_decimal (htype : f.type = .string) {v : Int} (htext : f.text.toList = Decimal.integer v)
    (hv : Fits 8 v) : f.int = v := by
  rw [int_of_string htype, htext, Numeral.leadingInt_integer hv.1 hv.2]

end Field

/-! ## Main statements -/

namespace Session

/-- **Integers round-trip at the narrowest width.** In every blob that a program can make and that has the room, an
    integer of 64 bits is stored in the narrowest width that holds it and reads back as itself, and as true if it is not
    zero. Two integers have the same field only if they are the same. A field from elsewhere whose payload is complete
    reads as the two's complement number that the front of its payload is, and that number is stored again in a field
    that is no longer. -/
theorem putInt_canonical (n : Nat) (history : List Step) (i : Nat) {b : Blob}
    (hb : ((start n).run history).blob i = b) :
    (∀ v, Fits 8 v → ∃ width, IsNarrowest width v ∧
      (b.stopOf width ≤ b.config.limit → ∃ f, b.PutsInt v width f)) ∧
    (∀ n' history' i' b', ((start n').run history').blob i' = b' → ∀ v v', Fits 8 v → Fits 8 v' → ∀ f f',
      b.Adds (.putInt v) f → b'.Adds (.putInt v') f' → (f = f' ↔ v = v')) ∧
    ∀ g : Field, ∀ width, g.type.fixedSize? = some width → g.type.isFloat = false → width ≤ g.data.length →
      g.int = ((BitVec.ofNat (8 * width) (Bytes.toNat (g.data.take width))).signExtend 64).toInt ∧
      ∃ narrow ≤ width, IsNarrowest narrow g.int ∧ (b.stopOf narrow ≤ b.config.limit →
        ∃ f, b.PutsInt g.int narrow f ∧ f.rawLength ≤ g.rawLength ∧ f.paddedLength ≤ g.paddedLength) := by
  have hsound : b.Sound := hb ▸ ((Sound.start n).run history).blob i
  refine ⟨fun v hv => ⟨_, Item.isNarrowest_ofInt hv, fun hroom => ⟨_, hsound.putsInt hv hroom⟩⟩, ?_, ?_⟩
  · intro n' history' i' b' hb' v v' hv hv' f f' hf hf'
    have hsound' : b'.Sound := hb' ▸ ((Sound.start n').run history').blob i'
    obtain ⟨hroom, rfl⟩ := (Operation.adds_item_iff hsound rfl f).mp hf
    obtain ⟨hroom', rfl⟩ := (Operation.adds_item_iff hsound' rfl f').mp hf'
    -- the integer can be read off its field
    constructor
    · intro hsame
      rw [← (hsound.putsInt hv hroom).int, hsame, (hsound'.putsInt hv' hroom').int]
    · rintro rfl
      rfl
  · intro g width hsize hfloat hdata
    have hmem := FieldType.mem_of_fixedSize? hsize
    have hwidth := FieldType.bounds_of_fixedSize? hsize
    -- what is read fits the width that it was read from, so the narrowest width is at most that
    have hfits := Field.fits_int hsize hfloat hdata
    have hnarrowest := Item.isNarrowest_ofInt (hfits.mono hwidth.2)
    have hnarrow := hnarrowest.least width hmem hfits
    refine ⟨Field.int_eq_signExtend hsize hfloat hdata, _, hnarrow, hnarrowest, fun hroom => ?_⟩
    have hputs := hsound.putsInt (hfits.mono hwidth.2) hroom
    have hraw : (Item.ofInt g.int).field.rawLength ≤ g.rawLength := by
      have hle := Field.le_rawLength hwidth.1 hdata
      rw [hputs.rawLength]
      omega
    exact ⟨_, hputs, hraw, alignUp_mono hraw⟩

/-- A blob in which the room ends with the next field. -/
def sampleNarrow : List Step := [.make 0 (.adopt { maxSize := 12 } [0x09, 0, 0, 4])]

/-- Minus one in eight bytes. -/
def sampleWide : Field := ⟨.ofWord 0x0600000c, List.replicate 8 0xff⟩

/-- The first number that needs two bytes, another that needs one, and one that comes in more than it needs. -/
theorem putInt_canonical_sampleNarrow :
    ∃ b b', ((start 1).run sampleNarrow).blob 0 = b ∧ ((start 1).run []).blob 0 = b' ∧
      (∃ f f', b.PutsInt (-129) 2 f ∧ b'.PutsInt (-128) 1 f' ∧ f ≠ f') ∧
      sampleWide.int = -1 ∧ ∃ f, b.PutsInt (-1) 1 f ∧ f.rawLength ≤ sampleWide.rawLength := by
  have hroom : (((start 1).run sampleNarrow).blob 0).stopOf 2 ≤
      (((start 1).run sampleNarrow).blob 0).config.limit := by decide +kernel
  have hroom1 : (((start 1).run sampleNarrow).blob 0).stopOf 1 ≤
      (((start 1).run sampleNarrow).blob 0).config.limit := by decide +kernel
  have hroom' : (((start 1).run []).blob 0).stopOf 1 ≤ (((start 1).run []).blob 0).config.limit := by
    decide +kernel
  have hneeds : IsNarrowest 2 (-129) := ⟨by decide, by decide, by decide⟩
  have hneeds' : IsNarrowest 1 (-128) := ⟨by decide, by decide, by decide⟩
  have hneeds1 : IsNarrowest 1 (-1) := ⟨by decide, by decide, by decide⟩
  -- there is one narrowest width, so the widths of the general statement are these
  obtain ⟨hput, hsame, hread⟩ := putInt_canonical 1 sampleNarrow 0 rfl
  obtain ⟨hput', -, -⟩ := putInt_canonical 1 [] 0 rfl
  obtain ⟨width, hnarrowest, hputs⟩ := hput (-129) (by decide)
  obtain ⟨width', hnarrowest', hputs'⟩ := hput' (-128) (by decide)
  obtain rfl := hnarrowest.eq hneeds
  obtain rfl := hnarrowest'.eq hneeds'
  obtain ⟨f, hf⟩ := hputs hroom
  obtain ⟨f', hf'⟩ := hputs' hroom'
  have hapart := hsame 1 [] 0 _ rfl (-129) (-128) (by decide) (by decide) f f' hf.adds hf'.adds
  obtain ⟨hint, narrow, -, hnarrow, hagain⟩ := hread sampleWide 8 rfl rfl (by decide)
  have hvalue : sampleWide.int = -1 := hint.trans (by decide +kernel)
  rw [hvalue] at hnarrow hagain
  obtain rfl := hnarrow.eq hneeds1
  obtain ⟨g, hg, hraw, -⟩ := hagain hroom1
  exact ⟨_, _, rfl, rfl, ⟨f, f', hf, hf', mt hapart.mp (by decide)⟩, hvalue, g, hg, hraw⟩

/-- **Integers in texts saturate.** A field of text, wherever it is from, reads as the integer that its text starts with
    or as the nearest one of 64 bits, never with the other sign. An integer of 64 bits whose decimal text is put into a
    blob that a program can make reads back as itself. -/
theorem textInt_saturates (n : Nat) (history : List Step) (i : Nat) {b : Blob}
    (hb : ((start n).run history).blob i = b) :
    (∀ f : Field, f.type = .string →
      (∃ sign radix ds, Numeral.StartsInteger f.text.toList sign radix ds) ∧
      ∀ sign radix ds, Numeral.StartsInteger f.text.toList sign radix ds →
        f.int = max (-2 ^ 63) (min (2 ^ 63 - 1) (sign * Nat.ofDigits radix ds.reverse)) ∧ 0 ≤ sign * f.int) ∧
    ∀ v text, Fits 8 v → text.toList = Decimal.integer v → b.stopOf (text.utf8ByteSize + 1) ≤ b.config.limit →
      ∃ f, b.PutsText text f ∧ f.text = text ∧ f.int = v := by
  have hsound : b.Sound := hb ▸ ((Sound.start n).run history).blob i
  constructor
  · intro f htype
    refine ⟨Numeral.exists_startsInteger _, fun sign radix ds hstarts => ?_⟩
    have hint := Field.int_of_startsInteger htype hstarts
    refine ⟨hint, ?_⟩
    generalize Nat.ofDigits radix ds.reverse = magnitude at hint
    -- clamping keeps the side of zero
    rcases hstarts.sign_eq with rfl | rfl <;> omega
  · intro v text hv htext hroom
    have hputs := hsound.putsText hroom
    have hwhole := hputs.whole (htext ▸ Numeral.zero_notMem_integer v)
    exact ⟨_, hputs, hwhole, Field.int_of_decimal hputs.type (hwhole.symm ▸ htext) hv⟩

/-- A text of a number far below what 64 bits hold, with the mark of a radix behind its sign. -/
def sampleVast : Field :=
  ⟨.ofWord 0x02000036, Bytes.ofText " -0X" ++ List.replicate 45 0x46 ++ [0]⟩

theorem textInt_saturates_sampleVast :
    sampleVast.int = -2 ^ 63 ∧ ∃ b, ((start 1).run []).blob 0 = b ∧
      ∃ f, b.PutsText "-9223372036854775808" f ∧ f.int = -2 ^ 63 := by
  have hroom : (((start 1).run []).blob 0).stopOf ("-9223372036854775808".utf8ByteSize + 1) ≤
      (((start 1).run []).blob 0).config.limit := by decide +kernel
  obtain ⟨hread, hput⟩ := textInt_saturates 1 [] 0 rfl
  have htext : sampleVast.text.toList = " -0X".toList ++ List.replicate 45 'F' := by decide +kernel
  have hstarts : Numeral.StartsInteger ([' '] ++ '-' :: '0' :: 'X' :: (List.replicate 45 'F' ++ [])) (-1) 16
      (List.replicate 45 15) := by
    have hdigits : List.Forall₂ (Numeral.IsDigitOf 16) (List.replicate 45 'F') (List.replicate 45 15) :=
      List.forall₂_iff_get.mpr ⟨rfl, by simp [Numeral.IsDigitOf]; decide⟩
    exact .mk (by simp [Numeral.isBlank]) (by simp [Numeral.isBlank]) .minus (.hexadecimal (by simp)) hdigits (by simp)
  obtain ⟨f, hputs, -, hint⟩ := hput (-2 ^ 63) "-9223372036854775808" (by decide) (by decide +kernel) hroom
  exact ⟨((hread sampleVast rfl).2 _ _ _ (htext ▸ hstarts)).1.trans (by decide +kernel), _, rfl, f, hputs, hint⟩

end Session

end FieldTree
