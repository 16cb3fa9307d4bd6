import FieldTree.Proofs.Binary.Patterns

/-!
# Packed Patterns

Packing brings a magnitude between one and two, subtracts the leading bit and rounds what is left to the width of
the significand field. The steps before the rounding are exact, and what the rounding gives is at once exponent and
significand: a carry out of the significand field is the next exponent, from the subnormal numbers to the normal
ones and from the largest finite number to infinity.

## Architecture

- `Rounding.lt_halfUp_iff`: a number is passed if its midpoint with the next is reached.
- `Format.HalfUpRank`: the same for ranks. It determines the rank (`HalfUpRank.unique`) and is monotone
  (`HalfUpRank.mono`).
- `Format.lt_significand_iff`: rounding the significand of a binade passes the ranks that it has to.
- `Binary.normalize_ofUnits`: the magnitude between one and two.
- `Format.packMagnitude_halfUpRank`: **a packed magnitude is rounded once**, halves away from zero.
-/

namespace FieldTree

namespace Rounding

theorem lt_halfUp_iff {num den : Nat} (hden : 0 < den) (j : Nat) :
    j < halfUp num den ↔ (2 * j + 1) * den ≤ 2 * num := by
  have htwice : (j + 1) * (2 * den) = (2 * j + 1) * den + den := by
    rw [Nat.mul_left_comm, ← Nat.mul_assoc, ← Nat.succ_mul]
    congr 1
  rw [halfUp, Nat.lt_iff_add_one_le, Nat.le_div_iff_mul_le (Nat.mul_pos (by decide) hden), htwice]
  exact Nat.add_le_add_iff_right

theorem halfUp_mul_mul_right (num den : Nat) {c : Nat} (hc : 0 < c) :
    halfUp (num * c) (den * c) = halfUp num den := by
  rw [halfUp, ← Nat.mul_assoc, ← Nat.mul_assoc, ← Nat.add_mul, Nat.mul_div_mul_right _ _ hc, halfUp]

theorem halfUp_add_mul (num c : Nat) {den : Nat} (hden : 0 < den) :
    halfUp (num + c * den) den = halfUp num den + c := by
  rw [halfUp, show 2 * (num + c * den) + den = 2 * num + den + c * (2 * den) by rw [Nat.mul_left_comm c]; omega,
    Nat.add_mul_div_right _ _ (Nat.mul_pos (by decide) hden), halfUp]

/-- What is at most a whole number is not rounded beyond it. -/
theorem halfUp_le_of_le_mul {num den c : Nat} (hden : 0 < den) (h : num ≤ c * den) : halfUp num den ≤ c := by
  rw [← Nat.not_lt, lt_halfUp_iff hden, Nat.not_le, Nat.succ_mul (2 * c), Nat.mul_assoc]
  omega

theorem le_halfUp_of_mul_le {num den c : Nat} (hden : 0 < den) (h : c * den ≤ num) : c ≤ halfUp num den := by
  cases c with
  | zero => exact Nat.zero_le _
  | succ c =>
    rw [Nat.succ_mul] at h
    rw [Nat.succ_le_iff, lt_halfUp_iff hden, Nat.succ_mul (2 * c), Nat.mul_assoc]
    omega

end Rounding

/-! ## Ranks by midpoints -/

namespace Format

open Rounding

variable {f : Format} {num num' den rank rank' : Nat}

/-- A quotient of units to a rank, halves away from zero: the ranks that are passed are those whose midpoint with
    the next rank is reached. Infinity is the last. -/
structure HalfUpRank (f : Format) (num den rank : Nat) : Prop where
  le_infinityRank : rank ≤ f.infinityRank
  lt_iff : ∀ r < f.infinityRank, r < rank ↔ (f.units r + f.units (r + 1)) * den ≤ 2 * num

/-- **A larger quotient has no smaller rank.** -/
theorem HalfUpRank.mono (h : f.HalfUpRank num den rank) (h' : f.HalfUpRank num' den rank') (hle : num ≤ num') :
    rank ≤ rank' := by
  apply Nat.le_of_not_lt
  intro hless
  have hfinite := Nat.lt_of_lt_of_le hless h.le_infinityRank
  have hpassed := (h.lt_iff rank' hfinite).mp hless
  exact Nat.lt_irrefl _ ((h'.lt_iff rank' hfinite).mpr (Nat.le_trans hpassed (Nat.mul_le_mul_left 2 hle)))

theorem HalfUpRank.unique (h : f.HalfUpRank num den rank) (h' : f.HalfUpRank num den rank') : rank = rank' :=
  Nat.le_antisymm (h.mono h' (Nat.le_refl _)) (h'.mono h (Nat.le_refl _))

/-- The magnitude of a rank has this rank. -/
theorem halfUpRank_units (hden : 0 < den) (h : rank ≤ f.infinityRank) :
    f.HalfUpRank (f.units rank * den) den rank := by
  refine ⟨h, fun r _ => ?_⟩
  rw [← Nat.mul_assoc, Nat.mul_le_mul_right_iff hden]
  rcases Nat.lt_or_ge r rank with hless | hmore
  case inl =>
    have hr := f.units_mono (Nat.le_of_lt hless)
    have hnext : f.units (r + 1) ≤ f.units rank := f.units_mono hless
    exact iff_of_true hless (by omega)
  case inr =>
    have hr := f.units_mono hmore
    have hnext : f.units rank < f.units (r + 1) := f.units_strictMono (Nat.lt_succ_of_le hmore)
    exact iff_of_false (Nat.not_lt_of_le hmore) (by omega)

/-- The magnitude of a significand, as a multiple of what the quotient is rounded to. -/
theorem units_mul {step j : Nat} (hlow : step = 0 ∨ 2 ^ f.fraction ≤ j) (hhigh : j ≤ 2 * 2 ^ f.fraction) :
    f.units (step * 2 ^ f.fraction + j) * den = j * (den * 2 ^ step) := by
  rw [f.units_significand hlow hhigh]
  ac_rfl

/-- **Rounding the significand of a binade rounds the rank.** The end of the binade is the beginning of the next, so
    a carry is not an exception. -/
theorem lt_significand_iff {step : Nat} (hden : 0 < den)
    (hlow : step = 0 ∨ 2 ^ f.fraction * (den * 2 ^ step) ≤ num)
    (hhigh : num < 2 * 2 ^ f.fraction * (den * 2 ^ step)) (r : Nat) :
    r < step * 2 ^ f.fraction + halfUp num (den * 2 ^ step) ↔ (f.units r + f.units (r + 1)) * den ≤ 2 * num := by
  have hweight : 0 < den * 2 ^ step := Nat.mul_pos hden (Nat.two_pow_pos step)
  have hmost : halfUp num (den * 2 ^ step) ≤ 2 * 2 ^ f.fraction := halfUp_le_of_le_mul hweight (Nat.le_of_lt hhigh)
  -- the ranks of the binade, those behind it, and those in front of it, of which the first binade has none
  rcases Nat.lt_or_ge r (step * 2 ^ f.fraction + 2 * 2 ^ f.fraction) with hinside | habove
  case inr =>
    -- the quotient does not reach beyond the binade
    have hend := Nat.mul_le_mul_right den (f.units_mono habove)
    have hnext : _ ≤ f.units (r + 1) * den :=
      Nat.mul_le_mul_right den (f.units_mono (Nat.le_succ_of_le habove))
    rw [units_mul (.inr (Nat.le_mul_of_pos_left _ (by decide))) (Nat.le_refl _)] at hend hnext
    rw [Nat.add_mul]
    exact iff_of_false (by omega) (by omega)
  by_cases hbelow : r < step * 2 ^ f.fraction ∨ step ≠ 0 ∧ r < step * 2 ^ f.fraction + 2 ^ f.fraction
  case pos =>
    -- the quotient has reached the binade, so it has passed what is in front
    have hstep : step ≠ 0 := by
      rcases hbelow with hbelow | hbelow
      · rintro rfl
        omega
      · exact hbelow.1
    have hreached := hlow.resolve_left hstep
    have hr : r + 1 ≤ step * 2 ^ f.fraction + 2 ^ f.fraction := by omega
    have hleast : 2 ^ f.fraction ≤ halfUp num (den * 2 ^ step) := le_halfUp_of_mul_le hweight hreached
    have hbegin := Nat.mul_le_mul_right den (f.units_mono hr)
    have hless := Nat.mul_le_mul_right den (Nat.le_of_lt (f.units_lt_succ r))
    rw [units_mul (.inr (Nat.le_refl _)) (Nat.le_mul_of_pos_left _ (by decide))] at hbegin
    rw [Nat.add_mul]
    exact iff_of_true (by omega) (by omega)
  case neg =>
    obtain ⟨j, rfl⟩ : ∃ j, r = step * 2 ^ f.fraction + j := ⟨r - step * 2 ^ f.fraction, by omega⟩
    have hj : step = 0 ∨ 2 ^ f.fraction ≤ j := by omega
    rw [Nat.add_mul, Nat.add_assoc, units_mul hj (by omega), units_mul (hj.imp_right Nat.le_succ_of_le) (by omega),
      Nat.add_lt_add_iff_left, lt_halfUp_iff hweight, ← Nat.add_mul, show j + (j + 1) = 2 * j + 1 by omega]

/-- The rank of a quotient by its significand. -/
theorem halfUpRank_significand {step : Nat} (hden : 0 < den)
    (hlow : step = 0 ∨ 2 ^ f.fraction * (den * 2 ^ step) ≤ num)
    (hhigh : num < 2 * 2 ^ f.fraction * (den * 2 ^ step)) :
    f.HalfUpRank num den (min f.infinityRank (step * 2 ^ f.fraction + halfUp num (den * 2 ^ step))) := by
  refine ⟨Nat.min_le_left _ _, fun r hr => ?_⟩
  rw [← lt_significand_iff hden hlow hhigh r, Nat.lt_min]
  exact and_iff_right hr

end Format

/-! ## A magnitude between one and two -/

namespace Binary

open Format

variable {f : Format} {m k l n steps : Nat}

theorem halveBelowTwo_of_lt {x : Double} (h : x.units < 2 * double.scale) : halveBelowTwo steps x = (x, 0) := by
  cases steps with
  | zero => rfl
  | succ steps => exact if_pos h

theorem halveBelowTwo_succ {x : Double} (h : 2 * double.scale ≤ x.units) :
    halveBelowTwo (steps + 1) x = ((halveBelowTwo steps x.half).1, (halveBelowTwo steps x.half).2 + 1) :=
  if_neg (Nat.not_lt_of_le h)

theorem doubleToOne_succ {x : Double} (h : x.units < double.scale) :
    doubleToOne (steps + 1) x = ((doubleToOne steps x.twice).1, (doubleToOne steps x.twice).2 + 1) :=
  if_neg (Nat.not_le_of_lt h)

theorem doubleToOne_of_le {x : Double} (h : double.scale ≤ x.units) : doubleToOne steps x = (x, 0) := by
  cases steps with
  | zero => rfl
  | succ steps => exact if_pos h

theorem normalize_eq {x y z : Double} {a b : Nat} (hhalve : halveBelowTwo 1074 x = (y, a))
    (hdouble : doubleToOne 1074 y = (z, b)) : normalize x = (z, (a : Int) - b) := by
  simp only [normalize, hhalve, hdouble]

/-- A significand has `l + 1` bits, and no more than that of a double. -/
structure HasBits (m l : Nat) : Prop where
  le : 2 ^ l ≤ m
  lt : m < 2 ^ (l + 1)
  short : l ≤ 52

namespace HasBits

variable (h : HasBits m l)
include h

theorem le_two_pow : m ≤ 2 ^ 53 :=
  Nat.le_of_lt (Nat.lt_of_lt_of_le h.lt (Nat.pow_le_pow_right (by decide) (Nat.succ_le_succ h.short)))

theorem significand_le : m ≤ 2 * 2 ^ double.fraction := significand_le_double h.le_two_pow

theorem scale_le (hk : 1074 ≤ k + l) : double.scale ≤ m * 2 ^ k := by
  rw [double_scale]
  calc 2 ^ 1074 ≤ 2 ^ (l + k) := Nat.pow_le_pow_right (by decide) (by omega)
    _ = 2 ^ l * 2 ^ k := Nat.pow_add 2 l k
    _ ≤ m * 2 ^ k := Nat.mul_le_mul_right _ h.le

theorem lt_two_mul_scale (hk : k + l ≤ 1074) : m * 2 ^ k < 2 * double.scale := by
  rw [double_scale]
  calc m * 2 ^ k < 2 ^ (l + 1) * 2 ^ k := Nat.mul_lt_mul_of_pos_right h.lt (Nat.two_pow_pos k)
    _ = 2 * 2 ^ (l + k) := by rw [← Nat.pow_add, Nat.add_right_comm, Nat.pow_succ']
    _ ≤ 2 * 2 ^ 1074 := Nat.mul_le_mul_left 2 (Nat.pow_le_pow_right (by decide) (by omega))

/-- Where the range ends. -/
theorem lt_of_range (hrange : m * 2 ^ k < double.units double.infinityRank) : k + l < 2098 := by
  rw [double_units_infinityRank] at hrange
  have hpower : 2 ^ (l + k) < 2 ^ 2098 :=
    calc 2 ^ (l + k) = 2 ^ l * 2 ^ k := Nat.pow_add 2 l k
      _ ≤ m * 2 ^ k := Nat.mul_le_mul_right _ h.le
      _ < 2 ^ 2098 := hrange
  have hless := (Nat.pow_lt_pow_iff_right (by decide)).mp hpower
  omega

/-- The halvings of a number that ends between one and two. -/
theorem halveBelowTwo_ofUnits (hk : k + l = 1074) (hn : n ≤ steps)
    (hrange : m * 2 ^ (k + n) < double.units double.infinityRank) :
    halveBelowTwo steps (ofUnits false (m * 2 ^ (k + n))) = (ofUnits false (m * 2 ^ k), n) := by
  have hheld := holds_mul_two_pow h.significand_le hrange
  induction n generalizing steps with
  | zero =>
    apply halveBelowTwo_of_lt
    rw [units_ofUnits false hheld]
    exact h.lt_two_mul_scale (Nat.le_of_eq hk)
  | succ n ih =>
    obtain ⟨steps, rfl⟩ := Nat.exists_eq_succ_of_ne_zero (Nat.ne_of_gt (Nat.lt_of_lt_of_le (Nat.succ_pos n) hn))
    have hhalf := holds_of_exponent_le h.significand_le (Nat.le_succ (k + n)) hrange
    rw [← Nat.add_assoc, mul_two_pow_succ] at hheld hrange ⊢
    have hlarge : 2 * double.scale ≤ (ofUnits false (2 * (m * 2 ^ (k + n))) : Double).units := by
      rw [units_ofUnits false hheld]
      exact Nat.mul_le_mul_left 2 (h.scale_le (by omega))
    rw [halveBelowTwo_succ hlarge, half_ofUnits false hhalf hheld, ih (Nat.le_of_succ_le_succ hn) (by omega) hhalf]

/-- The doublings of a number that ends between one and two. -/
theorem doubleToOne_ofUnits (hk : k + n + l = 1074) (hn : n ≤ steps) :
    doubleToOne steps (ofUnits false (m * 2 ^ k)) = (ofUnits false (m * 2 ^ (k + n)), n) := by
  have hheld {i : Nat} (hi : i + l ≤ 1074) : double.Holds (m * 2 ^ i) :=
    holds_mul_two_pow h.significand_le (double_range h.le_two_pow (by omega))
  induction n generalizing steps k with
  | zero =>
    apply doubleToOne_of_le
    rw [units_ofUnits false (hheld (by omega))]
    exact h.scale_le (by omega)
  | succ n ih =>
    obtain ⟨steps, rfl⟩ := Nat.exists_eq_succ_of_ne_zero (Nat.ne_of_gt (Nat.lt_of_lt_of_le (Nat.succ_pos n) hn))
    have hsmall : (ofUnits false (m * 2 ^ k) : Double).units < double.scale := by
      have hnext := h.lt_two_mul_scale (k := k + 1) (by omega)
      rw [mul_two_pow_succ] at hnext
      rw [units_ofUnits false (hheld (by omega))]
      exact Nat.lt_of_mul_lt_mul_left hnext
    rw [doubleToOne_succ hsmall, twice_ofUnits false (hheld (by omega)), ← mul_two_pow_succ,
      ih (by omega) (Nat.le_of_succ_le_succ hn), Nat.add_right_comm, Nat.add_assoc]

/-- **The magnitude is brought between one and two**, whether it is subnormal or not. -/
theorem normalize_ofUnits (hrange : m * 2 ^ k < double.units double.infinityRank) :
    normalize (ofUnits false (m * 2 ^ k)) = (ofUnits false (m * 2 ^ (1074 - l)), (k : Int) + l - 1074) := by
  have hshort := h.short
  have hheld := holds_mul_two_pow h.significand_le hrange
  have hend := h.lt_of_range hrange
  rcases Nat.lt_or_ge (k + l) 1074 with hsmall | hlarge
  case inl =>
    -- below one, and never halved
    have hbelow : (ofUnits false (m * 2 ^ k) : Double).units < 2 * double.scale := by
      rw [units_ofUnits false hheld]
      exact h.lt_two_mul_scale (Nat.le_of_lt hsmall)
    obtain ⟨n, hn⟩ : ∃ n, k + n = 1074 - l := ⟨1074 - l - k, by omega⟩
    rw [normalize_eq (halveBelowTwo_of_lt hbelow) (h.doubleToOne_ofUnits (n := n) (by omega) (by omega)), hn]
    exact congrArg (Prod.mk _) (by omega)
  case inr =>
    -- one at least, and halved until it is below two, where it need not be doubled
    obtain ⟨n, rfl⟩ : ∃ n, k = 1074 - l + n := ⟨k + l - 1074, by omega⟩
    have hone := holds_of_exponent_le h.significand_le (Nat.le_add_right (1074 - l) n) hrange
    have habove : double.scale ≤ (ofUnits false (m * 2 ^ (1074 - l)) : Double).units := by
      rw [units_ofUnits false hone]
      exact h.scale_le (by omega)
    rw [normalize_eq (h.halveBelowTwo_ofUnits (by omega) (by omega) hrange) (doubleToOne_of_le habove)]
    exact congrArg (Prod.mk _) (by omega)

end HasBits

/-- Every magnitude but zero has a significand of some bits. -/
theorem exists_hasBits (hn : double.Holds n) (hpos : 0 < n) : ∃ m k l, HasBits m l ∧ m * 2 ^ k = n := by
  obtain ⟨m, k, hm, rfl⟩ := hn.exists_significand
  have hm' : m ≠ 0 := Nat.ne_of_gt (Nat.pos_of_mul_pos_right hpos)
  have hlog : m.log2 < 53 := (Nat.log2_lt hm').mpr hm
  exact ⟨m, k, m.log2, ⟨Nat.log2_self_le hm', Nat.lt_log2_self, Nat.le_of_lt_succ hlog⟩, rfl⟩

/-- A number up to a word is rounded as its magnitude is. -/
theorem nearestNat_ofUnits (hn : f.Holds n) {c : Nat} (hle : n ≤ c * f.scale) (hc : c < 2 ^ 64) :
    (ofUnits false n : Binary f).nearestNat = Rounding.halfUp n f.scale := by
  obtain ⟨rank, rfl, hnumber⟩ := exists_ofUnits false hn
  have hless := Rounding.halfUp_le_of_le_mul (scale_pos f) hle
  rw [hnumber, nearestNat]
  exact Nat.min_eq_right (by omega)

end Binary

/-! ## Main statement -/

namespace Format

open Binary Rounding

variable {f : Format} {m k l n : Nat}

/-- **A layout of at most a word**: some bits of exponent, some of significand, and the sign. -/
structure InWord (f : Format) : Prop where
  exponent_pos : 0 < f.exponent
  fraction_pos : 0 < f.fraction
  bits_le : 1 + f.exponent + f.fraction ≤ 64

theorem InWord.two_pow_fraction_lt (h : f.InWord) : 2 ^ f.fraction < 2 ^ 64 := by
  have hbits := h.bits_le
  have hexponent := h.exponent_pos
  exact Nat.pow_lt_pow_right (by decide) (by omega)

theorem two_pow_fraction_le_infinityRank (hexponent : 0 < f.exponent) : 2 ^ f.fraction ≤ f.infinityRank :=
  Nat.le_mul_of_pos_left _ (topExponent_pos hexponent)

/-- Fields from an exponent on are infinity. -/
theorem packed_eq_min {e s : Nat} (hs : s < 2 ^ f.fraction) :
    (if (f.topExponent : Int) ≤ e then f.infinityRank else (e : Int).toNat * 2 ^ f.fraction + s) =
      min f.infinityRank (e * 2 ^ f.fraction + s) := by
  rw [Int.toNat_natCast]
  split
  case isTrue hinfinite =>
    have hle : f.topExponent ≤ e := Int.ofNat_le.mp hinfinite
    exact (Nat.min_eq_left (Nat.le_trans (Nat.mul_le_mul_right _ hle) (Nat.le_add_right _ _))).symm
  case isFalse hfinite =>
    have hless : e < f.topExponent := Nat.lt_of_not_le fun hle => hfinite (Int.ofNat_le.mpr hle)
    exact (Nat.min_eq_right (Nat.le_of_lt (rank_lt hless hs))).symm

theorem packMagnitude_of_nonpos {x z : Double} {shift : Int} (hz : normalize x = (z, shift))
    (he : shift + f.bias ≤ 0) : f.packMagnitude x = (z.scaleBy (shift + f.bias - 1 + f.fraction)).nearestNat := by
  simp only [packMagnitude, hz, if_pos he]

/-- The carry out of the significand field is the next exponent. -/
theorem packMagnitude_of_pos {x z : Double} {shift : Int} {e j : Nat} (hz : normalize x = (z, shift))
    (he : shift + f.bias = e) (hpos : 0 < e) (hj : ((z.sub .one).scaleBy f.fraction).nearestNat = j)
    (hle : j ≤ 2 ^ f.fraction) : f.packMagnitude x = min f.infinityRank (e * 2 ^ f.fraction + j) := by
  simp only [packMagnitude, hz, he, hj]
  rw [if_neg (by omega)]
  by_cases hcarry : j = 2 ^ f.fraction
  case pos =>
    rw [if_pos (beq_iff_eq.mpr hcarry), if_pos (beq_iff_eq.mpr hcarry), hcarry, ← Nat.succ_mul]
    exact packed_eq_min (Nat.two_pow_pos _)
  case neg =>
    have hkept : ¬(j == 2 ^ f.fraction) = true := fun heq => hcarry (beq_iff_eq.mp heq)
    rw [if_neg hkept, if_neg hkept]
    exact packed_eq_min (Nat.lt_of_le_of_ne hle hcarry)

theorem pack_finite (negative : Bool) {rank : Fin double.infinityRank} (h : rank.val ≠ 0) :
    f.pack (.finite negative rank) =
      (if negative then f.signWeight else 0) + f.packMagnitude (.finite false rank) := by
  simp only [pack, if_neg h]

variable (h : f.InWord) (hbits : HasBits m l) (hrange : m * 2 ^ k < double.units double.infinityRank)
include h hbits hrange

/-- **A subnormal result** is the magnitude in units of the format, rounded to a whole number. -/
theorem packMagnitude_of_subnormal (hsmall : k + l + f.bias ≤ 1074) :
    f.HalfUpRank (m * 2 ^ k * f.scale) double.scale (f.packMagnitude (ofUnits false (m * 2 ^ k))) := by
  have hwidth := h.bits_le
  have hfraction := h.fraction_pos
  have hshort := hbits.short
  obtain ⟨q, hq⟩ : ∃ q, f.fraction = q + 1 := ⟨f.fraction - 1, by omega⟩
  have hnum : m * 2 ^ k * f.scale = m * 2 ^ (k + f.bias + q) := by
    rw [scale, hq, Nat.mul_assoc, ← Nat.pow_add, ← Nat.add_assoc, Nat.add_sub_cancel, ← Nat.add_assoc]
  -- no more than the significand of a subnormal can hold, which is what makes it one
  have hless : m * 2 ^ (k + f.bias + q) < 2 ^ f.fraction * double.scale :=
    calc m * 2 ^ (k + f.bias + q) = m * 2 ^ (k + f.bias) * 2 ^ q := by rw [Nat.pow_add 2 (k + f.bias), Nat.mul_assoc]
      _ < 2 * double.scale * 2 ^ q :=
        Nat.mul_lt_mul_of_pos_right (hbits.lt_two_mul_scale (by omega)) (Nat.two_pow_pos q)
      _ = 2 ^ f.fraction * double.scale := by rw [hq, Nat.pow_succ, Nat.mul_right_comm, Nat.mul_comm 2]
  -- in units of the format the number is larger than it was, so none of the halvings rounds
  have hrange' : m * 2 ^ (k + f.bias + q) < double.units double.infinityRank :=
    double_range hbits.le_two_pow (by omega)
  have hpack : f.packMagnitude (ofUnits false (m * 2 ^ k)) =
      min f.infinityRank (0 * 2 ^ f.fraction + halfUp (m * 2 ^ k * f.scale) (double.scale * 2 ^ 0)) := by
    have hrank := halfUp_le_of_le_mul (scale_pos double) (Nat.le_of_lt hless)
    rw [packMagnitude_of_nonpos (hbits.normalize_ofUnits hrange) (by omega),
      scaleBy_ofUnits (k := 1074 - l) (l := k + f.bias + q) hbits.significand_le false (by omega)
        (double_range hbits.le_two_pow (by omega)) hrange',
      nearestNat_ofUnits (holds_mul_two_pow hbits.significand_le hrange') (Nat.le_of_lt hless) h.two_pow_fraction_lt,
      Nat.zero_mul, Nat.zero_add, Nat.pow_zero, Nat.mul_one, hnum]
    exact (Nat.min_eq_right (Nat.le_trans hrank (two_pow_fraction_le_infinityRank h.exponent_pos))).symm
  rw [hpack]
  -- such a number of units is a rank as it stands
  refine halfUpRank_significand (scale_pos double) (.inl rfl) ?_
  rw [hnum, Nat.pow_zero, Nat.mul_one, Nat.mul_assoc]
  omega

omit hrange in
/-- What is left of a significand without its leading bit is rounded like the significand. -/
theorem nearestNat_rest : ∃ j ≤ 2 ^ f.fraction,
    (((ofUnits false (m * 2 ^ (1074 - l)) : Double).sub .one).scaleBy f.fraction).nearestNat = j ∧
      halfUp (m * 2 ^ (1074 - l + f.fraction)) double.scale = j + 2 ^ f.fraction := by
  have hwidth := h.bits_le
  have hshort := hbits.short
  have hlow : double.scale ≤ m * 2 ^ (1074 - l) := hbits.scale_le (by omega)
  have hhigh : m * 2 ^ (1074 - l) < 2 * double.scale := hbits.lt_two_mul_scale (by omega)
  -- the leading bit of the significand weighs one
  obtain ⟨rest, hrest⟩ := Nat.exists_eq_add_of_le hbits.le
  have hsplit : m * 2 ^ (1074 - l) = rest * 2 ^ (1074 - l) + double.scale := by
    rw [hrest, Nat.add_mul, ← Nat.pow_add, Nat.add_comm, double_scale, show l + (1074 - l) = 1074 by omega]
  have hrestLe : rest ≤ 2 ^ 53 := Nat.le_trans (by rw [hrest]; exact Nat.le_add_left _ _) hbits.le_two_pow
  have hscaled : rest * 2 ^ (1074 - l + f.fraction) ≤ 2 ^ f.fraction * double.scale := by
    rw [Nat.pow_add, ← Nat.mul_assoc, Nat.mul_comm]
    exact Nat.mul_le_mul_left _ (by omega)
  refine ⟨halfUp (rest * 2 ^ (1074 - l + f.fraction)) double.scale,
    halfUp_le_of_le_mul (scale_pos double) hscaled, ?_, ?_⟩
  · -- taking one off is exact, and so is the scaling; only the last step rounds
    rw [one_eq_ofUnits, sub_ofUnits (by decide) (double_holds hbits.le_two_pow (by omega)) double_holds_scale hlow,
      hsplit, Nat.add_sub_cancel,
      scaleBy_ofUnits (k := 1074 - l) (l := 1074 - l + f.fraction) (significand_le_double hrestLe) false (by omega)
        (double_range hrestLe (by omega)) (double_range hrestLe (by omega)),
      nearestNat_ofUnits (double_holds hrestLe (by omega)) hscaled h.two_pow_fraction_lt]
  · rw [← halfUp_add_mul _ _ (scale_pos double), Nat.pow_add, ← Nat.mul_assoc, hsplit, Nat.add_mul, Nat.mul_assoc,
      Nat.mul_comm double.scale]

/-- **A normal result** is the exponent field and the rounded rest of the significand, carry included. -/
theorem packMagnitude_of_normal {step : Nat} (hlarge : k + l + f.bias = 1075 + step) :
    f.HalfUpRank (m * 2 ^ k * f.scale) double.scale (f.packMagnitude (ofUnits false (m * 2 ^ k))) := by
  have hfraction := h.fraction_pos
  have hshort := hbits.short
  -- the scale of the format is taken apart into the width of the fraction and the steps of the exponent
  have hnum : m * 2 ^ k * f.scale = m * 2 ^ (1074 - l) * (2 ^ f.fraction * 2 ^ step) := by
    rw [scale, Nat.mul_assoc, ← Nat.pow_add, Nat.mul_assoc, ← Nat.pow_add, ← Nat.pow_add,
      show k + (f.bias + f.fraction - 1) = 1074 - l + (f.fraction + step) by omega]
  have hlow : double.scale ≤ m * 2 ^ (1074 - l) := hbits.scale_le (by omega)
  have hhigh : m * 2 ^ (1074 - l) < 2 * double.scale := hbits.lt_two_mul_scale (by omega)
  have hweight : 0 < 2 ^ f.fraction * 2 ^ step := Nat.mul_pos (Nat.two_pow_pos _) (Nat.two_pow_pos _)
  obtain ⟨j, hj, hnearest, hrounded⟩ := nearestNat_rest h hbits
  -- the rest of the significand is rounded; a carry goes into the exponent field by itself
  have hpack : f.packMagnitude (ofUnits false (m * 2 ^ k)) =
      min f.infinityRank (step * 2 ^ f.fraction + halfUp (m * 2 ^ k * f.scale) (double.scale * 2 ^ step)) := by
    rw [packMagnitude_of_pos (hbits.normalize_ofUnits hrange) (e := step + 1) (by omega) (Nat.succ_pos step)
        hnearest hj,
      hnum, ← Nat.mul_assoc, halfUp_mul_mul_right _ _ (Nat.two_pow_pos step), Nat.mul_assoc, ← Nat.pow_add,
      hrounded, Nat.succ_mul, Nat.add_assoc, Nat.add_comm j]
  rw [hpack]
  refine halfUpRank_significand (scale_pos double) (.inr ?_) ?_
  · rw [hnum, Nat.mul_left_comm]
    exact Nat.mul_le_mul_right _ hlow
  · rw [hnum]
    calc m * 2 ^ (1074 - l) * (2 ^ f.fraction * 2 ^ step) < 2 * double.scale * (2 ^ f.fraction * 2 ^ step) :=
          Nat.mul_lt_mul_of_pos_right hhigh hweight
      _ = 2 * 2 ^ f.fraction * (double.scale * 2 ^ step) := Nat.mul_mul_mul_comm _ _ _ _

omit hbits hrange in
/-- **A packed magnitude is rounded once.** -/
theorem packMagnitude_halfUpRank (hn : double.Holds n) (hpos : 0 < n) :
    f.HalfUpRank (n * f.scale) double.scale (f.packMagnitude (ofUnits false n)) := by
  obtain ⟨rank, hrank, hunits⟩ := hn
  obtain ⟨m, k, l, hbits, rfl⟩ := exists_hasBits ⟨rank, hrank, hunits⟩ hpos
  have hrange : m * 2 ^ k < double.units double.infinityRank := by
    rw [← hunits]
    exact double.units_strictMono hrank
  rcases Nat.lt_or_ge 1074 (k + l + f.bias) with hlarge | hsmall
  case inl =>
    obtain ⟨step, hstep⟩ := Nat.exists_eq_add_of_le hlarge
    exact packMagnitude_of_normal h hbits hrange hstep
  case inr => exact packMagnitude_of_subnormal h hbits hrange hsmall

omit hbits hrange in
/-- **Packing keeps the sign and rounds the magnitude.** -/
theorem exists_pack_eq {x : Double} (hx : x.isFinite = true) (hpos : 0 < x.units) :
    ∃ rank, f.pack x = (if x.isNegative then f.signWeight else 0) + rank ∧
      f.HalfUpRank (x.units * f.scale) double.scale rank := by
  have hmagnitude := packMagnitude_halfUpRank h (holds_units hx) hpos
  cases x with
  | nan | infinite => cases hx
  | finite negative rank =>
    rw [Binary.units] at hpos hmagnitude ⊢
    have hrank : rank.val ≠ 0 := by
      intro hzero
      rw [hzero, units_zero] at hpos
      exact Nat.lt_irrefl 0 hpos
    rw [ofUnits_units] at hmagnitude
    exact ⟨f.packMagnitude (.finite false rank), pack_finite negative hrank, hmagnitude⟩

end Format

end FieldTree
