import FieldTree.Proofs.Binary.Packing
import Mathlib.Algebra.Order.Field.Power
import Mathlib.Data.Rat.Cast.Order
import Mathlib.Tactic.FieldSimp
import Mathlib.Tactic.Linarith
import Mathlib.Tactic.Positivity
import Mathlib.Tactic.Ring

/-!
# Packing Rounds to Nearest

A rank that passes the midpoints it has to is a nearest one, and the farther from zero of two that are equally near.
Beyond the midpoint of the largest finite number and the power of two that follows it, there is infinity; below half
of the smallest number, zero.

## Architecture

- `Format.value`: the magnitude of a rank as a rational number, by its fields in `Format.value_fields`.
- `Format.RoundsAway`: nearest among the finite numbers, halfway cases away from zero, and where infinity and zero
  begin.
- `HalfUpRank.roundsAway`: the midpoints decide it.
- `Format.pack_roundsAway`: **packing keeps the sign and rounds the magnitude so**, and is monotone in it.
-/

namespace FieldTree

/-! ## Distances -/

theorem abs_sub_le_of_add_le {a b q : ℚ} (hle : a ≤ b) (h : a + b ≤ 2 * q) : |b - q| ≤ |a - q| := by
  rw [abs_of_nonpos (show a - q ≤ 0 by linarith)]
  exact abs_le.mpr ⟨by linarith, by linarith⟩

theorem abs_sub_lt_of_lt_add {a b q : ℚ} (hless : a < b) (h : 2 * q < a + b) : |a - q| < |b - q| := by
  rw [abs_of_pos (show 0 < b - q by linarith)]
  exact abs_lt.mpr ⟨by linarith, by linarith⟩

/-! ## Values of ranks -/

/-- The magnitude of a number; zero where there is none. -/
def Binary.magnitude {f : Format} (x : Binary f) : ℚ := x.units / f.scale

namespace Format

open Binary

variable {f : Format}

/-- The magnitude of the number of a given rank. -/
def value (f : Format) (rank : Nat) : ℚ := f.units rank / f.scale

theorem cast_scale_pos : (0 : ℚ) < f.scale := Nat.cast_pos.mpr (scale_pos f)

theorem value_zero : f.value 0 = 0 := by
  rw [value, units_zero, Nat.cast_zero, zero_div]

theorem value_strictMono : StrictMono f.value := fun _ _ h =>
  div_lt_div_of_pos_right (Nat.cast_lt.mpr (f.units_strictMono h)) cast_scale_pos

/-- **The value of a pattern's fields**: a significand below one with the smallest exponent, or one and the
    significand with the exponent less the bias. -/
theorem value_fields (hfraction : 0 < f.fraction) {exponent significand : Nat} (h : significand < 2 ^ f.fraction) :
    f.value (exponent * 2 ^ f.fraction + significand) =
      if exponent = 0 then significand / (2 : ℚ) ^ f.fraction * (2 : ℚ) ^ (1 - f.bias : ℤ)
      else (1 + significand / (2 : ℚ) ^ f.fraction) * (2 : ℚ) ^ (exponent - f.bias : ℤ) := by
  have hwidth : (2 : ℚ) ^ f.fraction ≠ 0 := by positivity
  -- the scale is a power of two, so that all powers meet in one exponent
  have hscale (e : Nat) : (2 : ℚ) ^ (e + 1 - f.bias : ℤ) * f.scale = 2 ^ e * 2 ^ f.fraction := by
    have hcast : (f.scale : ℚ) = (2 : ℚ) ^ (f.bias + f.fraction - 1 : ℤ) := by
      rw [scale, show (f.bias + f.fraction - 1 : ℤ) = (f.bias + f.fraction - 1 : Nat) by omega, zpow_natCast]
      exact Nat.cast_pow 2 _
    rw [hcast, ← zpow_add₀ (by norm_num), ← pow_add, ← zpow_natCast]
    congr 1
    push_cast
    ring
  rw [value, div_eq_iff cast_scale_pos.ne']
  -- a subnormal has the exponent of the first binade and no leading bit
  cases exponent with
  | zero =>
    have hunits := f.units_significand (.inl rfl) (show significand ≤ 2 * 2 ^ f.fraction by omega)
    have hone := hscale 0
    rw [Nat.cast_zero, zero_add, pow_zero, one_mul] at hone
    rw [Nat.pow_zero, Nat.mul_one] at hunits
    rw [if_pos rfl, hunits, mul_assoc, hone, div_mul_cancel₀ _ hwidth]
  | succ binade =>
    have hunits : f.units ((binade + 1) * 2 ^ f.fraction + significand) =
        (2 ^ f.fraction + significand) * 2 ^ binade := by
      rw [Nat.succ_mul, Nat.add_assoc]
      exact f.units_significand (.inr (Nat.le_add_right _ _)) (by omega)
    rw [if_neg (Nat.succ_ne_zero binade), hunits, Nat.cast_succ, mul_assoc, hscale]
    push_cast
    field_simp

/-! ## Rounding away from zero -/

/-- The rank that a magnitude is rounded to: the nearest of the finite ranks, of two that are equally near the
    larger, infinity from the midpoint before it on, and zero below half of the smallest number. -/
structure RoundsAway (f : Format) (q : ℚ) (rank : Nat) : Prop where
  le_infinityRank : rank ≤ f.infinityRank
  nearest : rank < f.infinityRank → ∀ r < f.infinityRank, |f.value rank - q| ≤ |f.value r - q|
  away : rank < f.infinityRank → ∀ r < f.infinityRank, |f.value rank - q| = |f.value r - q| → r ≤ rank
  infinite_iff : rank = f.infinityRank ↔ (f.value (f.infinityRank - 1) + f.value f.infinityRank) / 2 ≤ q
  zero_iff : rank = 0 ↔ q < f.value 1 / 2

variable {num den rank : Nat}

/-- A midpoint as rational number. -/
theorem HalfUpRank.lt_iff_value (h : f.HalfUpRank num den rank) (hden : 0 < den) {r : Nat} (hr : r < f.infinityRank) :
    r < rank ↔ f.value r + f.value (r + 1) ≤ 2 * (num / (den * f.scale) : ℚ) := by
  have hden' : (0 : ℚ) < den := Nat.cast_pos.mpr hden
  have hscale := cast_scale_pos (f := f)
  rw [h.lt_iff r hr, value, value, ← add_div, ← mul_div_assoc, div_le_div_iff₀ hscale (mul_pos hden' hscale),
    ← mul_assoc, mul_le_mul_iff_left₀ hscale]
  exact_mod_cast Iff.rfl

/-- **The midpoints decide to what a magnitude is rounded.** -/
theorem HalfUpRank.roundsAway (h : f.HalfUpRank num den rank) (hden : 0 < den) (hexponent : 0 < f.exponent) :
    f.RoundsAway (num / (den * f.scale)) rank := by
  have hpassed {r : Nat} (hr : r < f.infinityRank) := h.lt_iff_value hden hr
  have hpositive := infinityRank_pos hexponent
  generalize (num / (den * f.scale) : ℚ) = q at hpassed ⊢
  -- smaller ranks lie in front of the midpoint that was passed last, larger ones behind the next
  have hbefore {r : Nat} (hr : r < rank) : f.value r + f.value rank ≤ 2 * q := by
    obtain ⟨last, rfl⟩ := Nat.exists_eq_succ_of_ne_zero (Nat.ne_of_gt (Nat.lt_of_le_of_lt (Nat.zero_le r) hr))
    have hlast := (hpassed (Nat.lt_of_succ_le h.le_infinityRank)).mp (Nat.lt_succ_self last)
    have hr' := f.value_strictMono.monotone (Nat.le_of_lt_succ hr)
    linarith
  have hbehind {r : Nat} (hfinite : rank < f.infinityRank) (hr : rank < r) : 2 * q < f.value rank + f.value r := by
    have hnot := mt (hpassed hfinite).mpr (Nat.lt_irrefl rank)
    have hr' := f.value_strictMono.monotone (Nat.succ_le_of_lt hr)
    rw [not_le] at hnot
    exact hnot.trans_le (add_le_add_right hr' _)
  refine ⟨h.le_infinityRank, fun hfinite r _ => ?_, fun hfinite r _ hsame => ?_, ?_, ?_⟩
  case refine_1 =>
    rcases Nat.lt_trichotomy r rank with hless | rfl | hmore
    · exact abs_sub_le_of_add_le (f.value_strictMono.monotone (Nat.le_of_lt hless)) (hbefore hless)
    · exact le_rfl
    · exact (abs_sub_lt_of_lt_add (f.value_strictMono hmore) (hbehind hfinite hmore)).le
  case refine_2 =>
    apply Nat.le_of_not_lt
    intro hmore
    exact (abs_sub_lt_of_lt_add (f.value_strictMono hmore) (hbehind hfinite hmore)).ne hsame
  case refine_3 =>
    -- infinity is what has passed the largest finite rank
    have hlast := hpassed (Nat.sub_one_lt_of_lt hpositive)
    rw [Nat.sub_add_cancel hpositive] at hlast
    rw [div_le_iff₀' (by norm_num), ← hlast]
    have hle := h.le_infinityRank
    omega
  case refine_4 =>
    -- zero is what has not reached the midpoint with the smallest number
    have hfirst := hpassed hpositive
    rw [value_zero, zero_add] at hfirst
    rw [lt_div_iff₀' (by norm_num), ← not_le, ← hfirst]
    omega

/-! ## Main statement -/

/-- A double that is packed, by its sign and the rank of its magnitude. -/
theorem InWord.pack_fields (h : f.InWord) {x : Double} (hx : x.isFinite = true) (hpos : 0 < x.units) :
    f.pack x / f.signWeight = (if x.isNegative then 1 else 0) ∧
      f.HalfUpRank (x.units * f.scale) double.scale (f.pack x % f.signWeight) := by
  obtain ⟨rank, hpack, hrank⟩ := exists_pack_eq h hx hpos
  have hless := Nat.lt_of_le_of_lt hrank.le_infinityRank infinityRank_lt_signWeight
  rw [hpack, sign_add_div _ hless, sign_add_mod _ hless]
  exact ⟨rfl, hrank⟩

/-- **Packing rounds to nearest.** In every layout of a word the pattern of a finite double that is not zero has the
    sign of the double and the rank to which its magnitude is rounded, halfway cases away from zero. A larger
    magnitude therefore has no smaller pattern. -/
theorem pack_roundsAway {f : Format} (h : f.InWord) {x : Double} (hx : x.isFinite = true) (hpos : 0 < x.units) :
    f.pack x / f.signWeight = (if x.isNegative then 1 else 0) ∧
      f.RoundsAway x.magnitude (f.pack x % f.signWeight) ∧
      ∀ y : Double, y.isFinite = true → 0 < y.units → x.magnitude ≤ y.magnitude →
        f.pack x % f.signWeight ≤ f.pack y % f.signWeight := by
  obtain ⟨hsign, hrank⟩ := h.pack_fields hx hpos
  refine ⟨hsign, ?_, fun y hy hypos hle => ?_⟩
  · have hround := hrank.roundsAway (scale_pos double) h.exponent_pos
    rwa [Nat.cast_mul, mul_div_mul_right _ _ cast_scale_pos.ne'] at hround
  · have hunits : x.units ≤ y.units :=
      Nat.cast_le.mp ((div_le_div_iff_of_pos_right (cast_scale_pos (f := double))).mp hle)
    exact hrank.mono (h.pack_fields hy hypos).2 (Nat.mul_le_mul_right _ hunits)

/-- The 16-bit interchange format. -/
def half : Format := ⟨10, 5⟩

/-- One and half a step of the 16-bit format, and minus 65520, halfway between its largest number and what would
    follow. -/
theorem pack_roundsAway_half :
    half.RoundsAway (Binary.ofBits 0x3FF0020000000000 : Double).magnitude 0x3C01 ∧
      half.RoundsAway (Binary.ofBits 0xC0EFFE0000000000 : Double).magnitude half.infinityRank ∧
      0x3C01 ≤ half.pack (.ofBits 0xC0EFFE0000000000) % half.signWeight := by
  have hhalf : half.InWord := ⟨by decide, by decide, by decide⟩
  have hstep : (Binary.ofBits 0x3FF0020000000000 : Double).isFinite = true := by decide +kernel
  have hend : (Binary.ofBits 0xC0EFFE0000000000 : Double).isFinite = true := by decide +kernel
  have hstep' : 0 < (Binary.ofBits 0x3FF0020000000000 : Double).units := by decide +kernel
  have hend' : 0 < (Binary.ofBits 0xC0EFFE0000000000 : Double).units := by decide +kernel
  have hle : (Binary.ofBits 0x3FF0020000000000 : Double).magnitude ≤ (Binary.ofBits 0xC0EFFE0000000000).magnitude :=
    div_le_div_of_nonneg_right (Nat.cast_le.mpr (by decide +kernel)) cast_scale_pos.le
  have hpack : half.pack (.ofBits 0x3FF0020000000000) % half.signWeight = 0x3C01 := by decide +kernel
  have hinfinite : half.pack (.ofBits 0xC0EFFE0000000000) % half.signWeight = half.infinityRank := by decide +kernel
  obtain ⟨-, hround, hmono⟩ := pack_roundsAway hhalf hstep hstep'
  obtain ⟨-, hround', -⟩ := pack_roundsAway hhalf hend hend'
  rw [← hpack, ← hinfinite]
  exact ⟨hround, hround', hmono _ hend hend' hle⟩

end Format

end FieldTree
