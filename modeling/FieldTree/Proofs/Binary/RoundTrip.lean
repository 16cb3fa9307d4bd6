import FieldTree.Proofs.Binary.Packing
import FieldTree.Proofs.Binary.Unpacking

/-!
# Unpacking and Packing are Inverse

A number of a format that doubles can hold is packed as its interchange pattern: its magnitude is that of its rank,
and no midpoint is between them. Together with unpacking, which reads the interchange pattern, this makes the two
inverse on all patterns but those of NaNs, and for the formats of 32 and 64 bits the same as the interchange pattern.

## Architecture

- `Narrow.pack_convert`: the pattern of a converted number is its own.
- `Single.pack_eq_bits`, `Double.pack_eq_bits`, `Single.unpack_eq_ofBits`, `Double.unpack_eq_ofBits`: the two
  interchange formats.
- `Format.pack_unpack`: **packing gives back what was unpacked**, for all formats together.
-/

namespace FieldTree

namespace Format

open Binary

variable {f : Format}

theorem Narrow.inWord (h : f.Narrow) : f.InWord where
  exponent_pos := h.exponent_pos
  fraction_pos := h.fraction_pos
  bits_le := by
    have hexponent := h.exponent_le
    have hfraction := h.fraction_le
    omega

/-- **A converted number has its own pattern.** -/
theorem Narrow.pack_convert (h : f.Narrow) (x : Binary f) : f.pack x.convert = x.bits := by
  cases x with
  | nan | infinite => rfl
  | finite negative rank =>
    have hheld := h.embeds.holds ⟨rank, rank.isLt, rfl⟩
    rw [h.embeds.convert_finite]
    -- zero is packed by its sign alone
    by_cases hzero : rank.val = 0
    case pos =>
      have hnone : (0 : Nat) < double.infinityRank := infinityRank_pos (by decide)
      rw [hzero, units_zero, Nat.zero_mul, ofUnits_zero (by decide), ofRank, dif_pos hnone, bits, hzero]
      rfl
    case neg =>
      have hpos : 0 < f.units rank := by
        have hless := f.units_strictMono (Nat.pos_of_ne_zero hzero)
        rwa [units_zero] at hless
      obtain ⟨wide, hunits, hnumber⟩ := exists_ofUnits negative hheld
      rw [hnumber]
      obtain ⟨packed, hpack, hrank⟩ := exists_pack_eq h.inWord (x := .finite negative wide) rfl
        (by rw [Binary.units, hunits]; exact Nat.mul_pos hpos (Nat.two_pow_pos _))
      -- the double has the magnitude of the rank, so it is rounded to it
      rw [Binary.units, hunits, Nat.mul_assoc, ← h.embeds.scale_eq] at hrank
      rw [hpack, hrank.unique (halfUpRank_units (scale_pos double) (Nat.le_of_lt rank.isLt))]
      rfl

end Format

/-! ## The two interchange formats -/

open Format

theorem Double.pack_eq_bits (v : Double) : v.pack = v.bits := by
  rw [Double.pack, ← narrow_double.pack_convert v, Embeds.convert_self]

theorem Double.unpack_eq_ofBits (w : Nat) : Double.unpack w = .ofBits w := by
  rw [Double.unpack, narrow_double.unpack_eq, Embeds.convert_self]

theorem Single.pack_eq_bits (x : Single) : x.pack = x.bits := narrow_single.pack_convert x

theorem Single.unpack_eq_ofBits (w : Nat) : Single.unpack w = .ofBits w := by
  rw [Single.unpack, narrow_single.unpack_eq, narrow_single.embeds.convert_convert]

/-! ## Main statement -/

namespace Format

/-- **Unpacking and packing are inverse.** In every format that doubles can hold a pattern that is not a NaN's is
    packed again as it was unpacked, all patterns of NaNs unpack as NaN, and NaN packs with the exponent all ones
    and the first bit of the significand. For 64 and 32 bits unpacking gives the number with that interchange
    pattern, and packing the interchange pattern of the number. -/
theorem pack_unpack :
    (∀ f : Format, f.Narrow →
      (∀ w < 2 * f.signWeight, ¬f.IsNaNPattern w → f.pack (f.unpack w) = w) ∧
      (∀ w < 2 * f.signWeight, f.IsNaNPattern w → f.unpack w = .nan) ∧
      f.pack .nan = f.topExponent * 2 ^ f.fraction + 2 ^ (f.fraction - 1)) ∧
    (∀ w < 2 ^ 64, Double.unpack w = .ofBits w) ∧
    (∀ w < 2 ^ 32, Single.unpack w = .ofBits w ∧ single.unpack w = (Binary.ofBits w : Single).convert) ∧
    (∀ v : Double, v ≠ .nan → v.pack = v.bits) ∧
    ∀ x : Single, x ≠ .nan → x.pack = x.bits := by
  refine ⟨fun f h => ⟨fun w hw hnumber => ?_, fun w _ hnan => ?_, rfl⟩, fun w _ => Double.unpack_eq_ofBits w,
    fun w _ => ⟨Single.unpack_eq_ofBits w, narrow_single.unpack_eq w⟩, fun v _ => v.pack_eq_bits,
    fun x _ => x.pack_eq_bits⟩
  · rw [h.unpack_eq, h.pack_convert, Binary.bits_ofBits hw hnumber]
  · rw [h.unpack_eq, Binary.ofBits_of_isNaNPattern hnan]
    rfl

/-- The smallest negative number and a NaN of a layout of eight bits, and the smallest double. -/
theorem pack_unpack_eightBits :
    pack ⟨3, 4⟩ (unpack ⟨3, 4⟩ 0x81) = 0x81 ∧ unpack ⟨3, 4⟩ 0x79 = .nan ∧
      Double.pack (.finite true ⟨1, by decide⟩) = 0x8000000000000001 := by
  have hnarrow : Narrow ⟨3, 4⟩ := ⟨by decide, by decide, by decide, by decide⟩
  obtain ⟨hlayouts, -, -, hdouble, -⟩ := pack_unpack
  obtain ⟨hnumber, hnan, -⟩ := hlayouts ⟨3, 4⟩ hnarrow
  refine ⟨hnumber 0x81 (by decide) (by decide), hnan 0x79 (by decide) (by decide), ?_⟩
  rw [hdouble _ (by rintro ⟨⟩)]
  decide +kernel

end Format

end FieldTree
