import FieldTree.Proofs.Rounding
import Mathlib.Algebra.Order.Field.Power
import Mathlib.Data.Rat.Cast.Order
import Mathlib.Tactic.FieldSimp
import Mathlib.Tactic.Positivity
import Mathlib.Tactic.Ring

/-!
# The Size of Printed Decimals

A double is printed with so many digits and with such an exponent that the decimal is in the range of a double
again. The bounds are those of the largest double and of the largest single, since rounding is monotone.

## Architecture

- `timesPower_ratio`, `lt_pow_exponent`: the exponent that is found for a quotient is that of its leading digit.
- `significand_le`, `normalized_bounds`: significand and exponent of a double.
- `exists_scaled_normalized`, `exists_scientific_eq`: **a decimal that is printed of a double has a double.**
- `below_largestSingle`, `length_whole_le`: the digits in front of the point of a single.
-/

namespace FieldTree.Decimal

/-! ## Digits -/

theorem length_digits_le_iff {n k : Nat} (hk : 0 < k) : (digits n).length ≤ k ↔ n < 10 ^ k :=
  Nat.length_toDigits_le_iff (by decide) hk

theorem length_digits_pos (n : Nat) : 0 < (digits n).length := Nat.length_toDigits_pos

theorem lt_pow_length_digits (n : Nat) : n < 10 ^ (digits n).length :=
  (length_digits_le_iff (length_digits_pos n)).mp (Nat.le_refl _)

theorem pow_length_digits_le {n : Nat} (h : 0 < n) : 10 ^ ((digits n).length - 1) ≤ n := by
  by_contra hless
  rw [Nat.not_le] at hless
  have hpos := length_digits_pos n
  rcases Nat.eq_zero_or_pos ((digits n).length - 1) with hone | hmore
  · rw [hone] at hless
    omega
  · have := (length_digits_le_iff hmore).mpr hless
    omega

/-! ## Quotients -/

/-- A quotient times a power of ten, as a rational number. -/
theorem timesPower_ratio (num : Nat) {den : Nat} (hden : 0 < den) (e : Int) :
    0 < (timesPower num den e).2 ∧
      ((timesPower num den e).1 : ℚ) / (timesPower num den e).2 = num / den * 10 ^ e := by
  -- a power below one goes into the denominator
  unfold timesPower
  split
  · next he =>
    refine ⟨hden, ?_⟩
    obtain ⟨k, rfl⟩ := Int.eq_ofNat_of_zero_le he
    simp only [Int.toNat_natCast, zpow_natCast]
    push_cast
    ring
  · next he =>
    refine ⟨Nat.mul_pos hden (Nat.pow_pos (by decide)), ?_⟩
    obtain ⟨k, hk⟩ := Int.eq_ofNat_of_zero_le (show 0 ≤ -e by omega)
    have hexponent : e = -(k : Int) := by omega
    subst hexponent
    simp only [Int.natAbs_neg, Int.natAbs_natCast, zpow_neg, zpow_natCast]
    push_cast
    field_simp

/-- **A quotient is below the power of ten that follows its exponent.** -/
theorem lt_pow_exponent (num : Nat) {den : Nat} (hden : 0 < den) :
    (num : ℚ) / den < 10 ^ (exponent num den + 1) := by
  have hpos : (0 : ℚ) < den := by exact_mod_cast hden
  simp only [exponent]
  generalize hguess : ((digits num).length : Int) - (digits den).length = guess
  obtain ⟨hd, hratio⟩ := timesPower_ratio num hden (-guess)
  split
  · -- by the number of digits alone
    have hnum : (num : ℚ) < 10 ^ ((digits num).length : Int) := by
      rw [zpow_natCast]
      exact_mod_cast lt_pow_length_digits num
    have hlow : (10 : ℚ) ^ ((digits den).length - 1 : Int) ≤ den := by
      have hlength := length_digits_pos den
      have hle := pow_length_digits_le hden
      rw [show ((digits den).length - 1 : Int) = ((digits den).length - 1 : Nat) by omega, zpow_natCast]
      exact_mod_cast hle
    rw [div_lt_iff₀ hpos]
    calc (num : ℚ) < 10 ^ ((digits num).length : Int) := hnum
      _ = 10 ^ (guess + 1) * 10 ^ ((digits den).length - 1 : Int) := by
        rw [← zpow_add₀ (by norm_num)]
        congr 1
        omega
      _ ≤ 10 ^ (guess + 1) * den := by gcongr
  · -- by the comparison that lowers the guess
    next hless =>
    have hone : (num : ℚ) / den * 10 ^ (-guess) < 1 := by
      rw [← hratio, div_lt_one (by exact_mod_cast hd)]
      exact_mod_cast Nat.not_le.mp hless
    rw [Int.sub_add_cancel]
    calc (num : ℚ) / den = num / den * 10 ^ (-guess) * 10 ^ guess := by
          rw [mul_assoc, ← zpow_add₀ (by norm_num), neg_add_cancel, zpow_zero, mul_one]
      _ < 1 * 10 ^ guess := by gcongr
      _ = 10 ^ guess := one_mul _

theorem exponent_le (num den : Nat) : exponent num den ≤ (digits num).length - (digits den).length := by
  simp only [exponent]
  split <;> omega

theorem le_exponent (num den : Nat) : (digits num).length - (digits den).length - 1 ≤ exponent num den := by
  simp only [exponent]
  split <;> omega

/-- The significand before a carry. -/
def significand (places num den : Nat) : Nat :=
  let (n, d) := timesPower num den (places - exponent num den)
  Rounding.halfEven n d

theorem significand_le (places num : Nat) {den : Nat} (hden : 0 < den) :
    significand places num den ≤ 10 ^ (places + 1) := by
  obtain ⟨hd, hratio⟩ := timesPower_ratio num hden (places - exponent num den)
  apply Rounding.halfEven_le_of_le_mul hd
  have hpos : (0 : ℚ) < (timesPower num den (places - exponent num den)).2 := by exact_mod_cast hd
  -- the power of ten is chosen so that one digit stands in front of the places
  have hlt : ((timesPower num den (places - exponent num den)).1 : ℚ) /
      (timesPower num den (places - exponent num den)).2 < 10 ^ (places + 1) := by
    rw [hratio]
    calc (num : ℚ) / den * 10 ^ (places - exponent num den)
        < 10 ^ (exponent num den + 1) * 10 ^ (places - exponent num den) := by
          gcongr
          exact lt_pow_exponent num hden
      _ = 10 ^ (places + 1) := by
          rw [← zpow_add₀ (by norm_num), ← zpow_natCast]
          congr 1
          push_cast
          omega
  rw [div_lt_iff₀ hpos] at hlt
  exact_mod_cast hlt.le

theorem normalized_eq (places num den : Nat) :
    normalized places num den =
      if significand places num den = 10 ^ (places + 1) then (10 ^ places, exponent num den + 1)
      else (significand places num den, exponent num den) :=
  rfl

/-! ## Doubles -/

section Doubles

variable {x : Double}

/-- The magnitude of the largest double. -/
def largestUnits : Nat := Format.double.units (Format.double.infinityRank - 1)

theorem units_le_largestUnits (h : x.isFinite = true) : x.units ≤ largestUnits :=
  (Binary.Below.largest h (by decide)).units_le

theorem length_digits_scale : (digits Format.double.scale).length = 324 := by decide +kernel

theorem length_digits_units_le (h : x.isFinite = true) : (digits x.units).length ≤ 632 := by
  rw [length_digits_le_iff (by decide)]
  exact Nat.lt_of_le_of_lt (units_le_largestUnits h) (by decide +kernel)

/-- The largest double has the largest significand at the largest exponent. -/
theorem significand_le_of_topPower (h : x.isFinite = true)
    (he : exponent x.units Format.double.scale = topPower) :
    significand 6 x.units Format.double.scale ≤ 1797693 := by
  have hvalue : significand 6 x.units Format.double.scale =
      Rounding.halfEven x.units (Format.double.scale * 10 ^ 302) := by
    have hplaces : ¬(0 : Int) ≤ (6 : Nat) - (topPower : Nat) := by decide
    have hpower : ((6 : Nat) - (topPower : Nat) : Int).natAbs = 302 := by decide
    simp only [significand, timesPower, he, if_neg hplaces, hpower]
  rw [hvalue]
  exact Nat.le_trans (Rounding.halfEven_mono (units_le_largestUnits h) _) (by decide +kernel)

theorem exponent_bounds (h : x.isFinite = true) :
    -324 ≤ exponent x.units Format.double.scale ∧ exponent x.units Format.double.scale ≤ topPower := by
  have hle := exponent_le x.units Format.double.scale
  have hge := le_exponent x.units Format.double.scale
  have hdigits := length_digits_units_le h
  have hpos := length_digits_pos x.units
  rw [length_digits_scale] at hle hge
  unfold topPower
  omega

/-- **What is printed of a double with an exponent is in the range of a double.** -/
theorem normalized_bounds (h : x.isFinite = true) {m : Nat} {e : Int}
    (hme : normalized 6 x.units Format.double.scale = (m, e)) :
    -324 ≤ e ∧ e ≤ topPower ∧ m ≤ 10 ^ 7 ∧ (e = topPower → m ≤ 1797693) := by
  obtain ⟨hlow, hhigh⟩ := exponent_bounds h
  have hsignificand := significand_le 6 x.units (Binary.scale_pos Format.double)
  rw [normalized_eq] at hme
  split at hme
  · next hcarry =>
    obtain ⟨rfl, rfl⟩ := Prod.mk.inj hme
    have hbelow : exponent x.units Format.double.scale ≠ topPower := by
      intro he
      have := significand_le_of_topPower h he
      rw [hcarry] at this
      exact absurd this (by decide)
    exact ⟨by omega, by omega, by decide, fun _ => by decide⟩
  · obtain ⟨rfl, rfl⟩ := Prod.mk.inj hme
    exact ⟨hlow, hhigh, hsignificand, significand_le_of_topPower h⟩

/-- **A decimal that is printed of a double has a double.** -/
theorem exists_scaled_normalized (h : x.isFinite = true) {m : Nat} {e : Int}
    (hme : normalized 6 x.units Format.double.scale = (m, e)) :
    ∃ y, scaled (.ofNat m) (e - 6) = some y := by
  obtain ⟨-, hhigh, hm, htop⟩ := normalized_bounds h hme
  rcases Int.lt_or_le (e - 6) 0 with hneg | hnonneg
  · exact scaled_neg _ hneg
  · obtain ⟨k, hk⟩ := Int.eq_ofNat_of_zero_le hnonneg
    rw [hk]
    unfold topPower at hhigh htop
    -- only the significands at the very top come close to the end of the range
    by_cases hmax : e = 308
    · exact scaled_nonneg (htop hmax) (show k ≤ 302 by omega) (by decide) (by decide +kernel)
    · exact scaled_nonneg hm (show k ≤ 301 by omega) (by decide) (by decide +kernel)

/-- **A double is printed with an exponent as a decimal that has a double.** -/
theorem exists_scientific_eq (h : x.isFinite = true) :
    ∃ (m : Nat) (e : Int), scientific 6 x.units Format.double.scale =
        withPoint 6 m ++ 'e' :: (if e < 0 then '-' else '+') :: padded 2 e.natAbs ∧
      m ≤ 10 ^ 7 ∧ e.natAbs ≤ 324 ∧ ∃ y, scaled (.ofNat m) (e - 6) = some y := by
  by_cases hzero : x.units = 0
  · refine ⟨0, 0, ?_, Nat.zero_le _, by decide, scaled_neg _ (by decide)⟩
    simp only [scientific, if_pos hzero]
  · cases hme : normalized 6 x.units Format.double.scale with
    | mk m e =>
      obtain ⟨hlow, hhigh, hm, -⟩ := normalized_bounds h hme
      unfold topPower at hhigh
      refine ⟨m, e, ?_, hm, by omega, exists_scaled_normalized h hme⟩
      simp only [scientific, if_neg hzero, hme]

/-- The largest double that a single is converted to. -/
def largestSingle : Double := (Binary.largest .single (by decide)).convert

theorem below_largestSingle {y : Single} (h : (y.convert : Double).isFinite = true) :
    (y.convert : Double).Below largestSingle :=
  (Binary.Below.largest (Binary.isFinite_of_convert h) (by decide)).convert (by decide +kernel)

/-- A single has at most 39 digits in front of the point. -/
theorem length_whole_le (h : x.Below largestSingle) :
    (digits (Rounding.halfEven (x.units * 10 ^ 6) Format.double.scale / 10 ^ 6)).length ≤ 39 := by
  rw [length_digits_le_iff (by decide)]
  have hunits := Rounding.halfEven_mono (Nat.mul_le_mul_right (10 ^ 6) h.units_le) Format.double.scale
  exact Nat.lt_of_le_of_lt (Nat.div_le_div_right hunits) (by decide +kernel)

end Doubles

end FieldTree.Decimal
