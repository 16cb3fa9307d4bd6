import FieldTree.Proofs.Binary.Patterns

/-!
# Unpacked Patterns

Unpacking scales the significand field back in double precision. For every format that doubles can hold each
of its steps is exact, also where it passes through numbers that are subnormal in the format, so it gives what
the fields of the pattern stand for: the number of the format with that interchange pattern, as a double.

## Architecture

- `Narrow.unpackMagnitude_of_lt`: the calculation step by step, for subnormal and for normal fields.
- `Narrow.unpackMagnitude_eq`: with the exponent of all ones.
- `Narrow.unpack_eq`: **unpacking is reading the interchange pattern and converting to double.**
-/

namespace FieldTree

namespace Format

open Binary

variable {f : Format} {w : Nat}

namespace Narrow

variable (h : f.Narrow)
include h

theorem two_pow_fraction_le : 2 ^ f.fraction ≤ 2 ^ 52 := Nat.pow_le_pow_right (by decide) h.fraction_le

variable {exponent significand : Nat} (hsignificand : significand < 2 ^ f.fraction)
include hsignificand

/-- The significand field as a part of one. -/
theorem ratio_eq : (Binary.ofNat significand : Double).scaleBy (-f.fraction) =
    ofUnits false (significand * 2 ^ (1074 - f.fraction)) := by
  have hfraction := h.fraction_le
  have hsmall := h.two_pow_fraction_le
  rw [ofNat_eq_ofUnits, double_scale]
  exact scaleBy_ofUnits (k := 1074) (l := 1074 - f.fraction) (significand_le_double (by omega)) false (by omega)
    (double_range (k := 1074) (by omega) (by decide)) (double_range (by omega) (by omega))

/-- **The fields below the exponent of all ones**: subnormal numbers and normal ones alike are scaled to the
    magnitude of their rank. -/
theorem unpackMagnitude_of_lt (hexponent : exponent < f.topExponent) :
    f.unpackMagnitude exponent significand =
      ofUnits false (f.units (exponent * 2 ^ f.fraction + significand) * 2 ^ f.doubleShift) := by
  have hfraction := h.fraction_le
  have hfraction' := h.fraction_pos
  have hbias := h.bias_le
  have hsmall := h.two_pow_fraction_le
  have hrange := h.embeds.units_lt (rank_lt hexponent hsignificand)
  have hpositive := Nat.two_pow_pos f.fraction
  simp only [unpackMagnitude, if_neg (Nat.ne_of_lt hexponent), h.ratio_eq hsignificand]
  cases exponent with
  | zero =>
    -- the smallest exponent, and no leading bit
    have hunits := f.units_significand (.inl rfl) (show significand ≤ 2 * 2 ^ f.fraction by omega)
    rw [Nat.pow_zero, Nat.mul_one] at hunits
    rw [if_pos rfl]
    rw [hunits] at hrange ⊢
    exact scaleBy_ofUnits (significand_le_double (by omega)) false (by unfold doubleShift; omega)
      (double_range (by omega) (by omega)) hrange
  | succ binade =>
    have hunits : f.units ((binade + 1) * 2 ^ f.fraction + significand) =
        (2 ^ f.fraction + significand) * 2 ^ binade := by
      rw [Nat.succ_mul, Nat.add_assoc]
      exact f.units_significand (.inr (Nat.le_add_right _ _)) (by omega)
    -- the leading bit is the one that is added
    rw [if_neg (Nat.succ_ne_zero binade)]
    rw [hunits, Nat.mul_assoc, ← Nat.pow_add] at hrange ⊢
    have hone : (one : Double) = ofUnits false (2 ^ f.fraction * 2 ^ (1074 - f.fraction)) := by
      rw [one_eq_ofUnits, double_scale, ← Nat.pow_add, Nat.add_sub_cancel' (show f.fraction ≤ 1074 by omega)]
    rw [hone, add_ofUnits (by decide) (double_holds (by omega) (by omega)) (double_holds (by omega) (by omega)),
      ← Nat.add_mul, Nat.add_comm significand]
    exact scaleBy_ofUnits (significand_le_double (by omega)) false
      (by unfold doubleShift; omega) (double_range (by omega) (by omega)) hrange

end Narrow

/-! ## Main statement -/

theorem neg_convert_ofRank (hf : f.Narrow) (negative : Bool) (rank : Nat) :
    ((ofRank negative rank : Binary f).convert : Double).neg = (ofRank (!negative) rank : Binary f).convert := by
  unfold ofRank
  split
  case isTrue hrank =>
    rw [hf.embeds.convert_finite, hf.embeds.convert_finite]
    exact neg_ofUnits negative (hf.embeds.holds ⟨rank, hrank, rfl⟩)
  case isFalse => rfl

/-- The magnitude is that of the interchange pattern without its sign. -/
theorem Narrow.unpackMagnitude_eq (hf : f.Narrow) (w : Nat) :
    f.unpackMagnitude (w / 2 ^ f.fraction % 2 ^ f.exponent) (w % 2 ^ f.fraction) =
      if f.IsNaNPattern w then .nan else (ofRank false (w % f.signWeight) : Binary f).convert := by
  have hsignificand := Nat.mod_lt w (Nat.two_pow_pos f.fraction)
  rw [mod_signWeight]
  rcases Nat.lt_or_eq_of_le (exponentField_le (f := f) w) with hless | htop
  case inl =>
    have hrank := rank_lt hless hsignificand
    rw [if_neg fun hnan => Nat.ne_of_lt hless hnan.1, hf.unpackMagnitude_of_lt hsignificand hless, ofRank,
      dif_pos hrank, hf.embeds.convert_finite]
  case inr =>
    simp only [IsNaNPattern, htop, true_and, unpackMagnitude, if_true, ite_not]
    by_cases hzero : w % 2 ^ f.fraction = 0
    case pos =>
      rw [if_pos hzero, if_pos hzero, hzero, Nat.add_zero]
      exact congrArg Binary.convert (ofRank_infinityRank false).symm
    case neg => rw [if_neg hzero, if_neg hzero]

/-- **Unpacking reads the interchange pattern and converts to double.** -/
theorem Narrow.unpack_eq (hf : f.Narrow) (w : Nat) : f.unpack w = (ofBits w : Binary f).convert := by
  simp only [unpack, hf.unpackMagnitude_eq]
  by_cases hnan : f.IsNaNPattern w
  case pos =>
    rw [ofBits_of_isNaNPattern hnan, if_pos hnan]
    exact ite_self _
  case neg =>
    -- the sign is set after the calculation, which conversion does not notice
    rw [ofBits_of_not_isNaNPattern hnan, if_neg hnan, neg_convert_ofRank hf]
    by_cases hsign : w / f.signWeight % 2 = 1
    case pos => rw [if_pos hsign, hsign]; rfl
    case neg => rw [if_neg hsign, beq_false_of_ne hsign]

end Format

end FieldTree
