import FieldTree.Binary.Packed
import FieldTree.Proofs.Rounding
import Mathlib.Logic.Function.Iterate

/-!
# Exact Steps of Arithmetic

The operations on binary numbers round every result. A result that the format holds is its own rounding, so a
calculation whose results are all held is a calculation with natural numbers: magnitudes are counted in units
of the format, and doubling, halving, adding and subtracting are what they are for counts.

A number of a narrow format is held by a wide one if its significand fits and the wide format begins below and
ends above the narrow one. Conversion there and back then gives the number again.

## Architecture

- `Format.Holds`: a count of units that is the magnitude of a finite number; significands times powers of two
  within the range are held.
- `Binary.ofUnits`: the number with a count of units. **Each operation on held counts has one lemma**, and
  scaling by a power of two one for both directions.
- `Format.Embeds`: a format within another. Conversion is exact and `Embeds.convert_convert` takes it back.
- `Format.Narrow`: the formats that a double can hold.
-/

namespace FieldTree

/-! ## Magnitudes that a format holds -/

namespace Format

variable {f : Format}

/-- A count of units is the magnitude of a finite number. -/
def Holds (f : Format) (n : Nat) : Prop := ∃ rank < f.infinityRank, f.units rank = n

theorem units_zero : f.units 0 = 0 := by
  simp only [units, Nat.zero_div, if_true]

theorem topExponent_pos (hexponent : 0 < f.exponent) : 0 < f.topExponent :=
  Nat.sub_pos_of_lt (Nat.one_lt_two_pow (Nat.ne_of_gt hexponent))

theorem infinityRank_pos (hexponent : 0 < f.exponent) : 0 < f.infinityRank :=
  Nat.mul_pos (topExponent_pos hexponent) (Nat.two_pow_pos _)

/-- The step after the largest finite number is a power of two. -/
theorem units_infinityRank (hexponent : 0 < f.exponent) :
    f.units f.infinityRank = 2 ^ (f.fraction + (f.topExponent - 1)) := by
  have hrank : f.infinityRank = (f.topExponent - 1) * 2 ^ f.fraction + 2 ^ f.fraction := by
    rw [← Nat.succ_mul, Nat.succ_eq_add_one, Nat.sub_add_cancel (topExponent_pos hexponent)]
    rfl
  rw [hrank, f.units_significand (.inr (Nat.le_refl _)) (Nat.le_mul_of_pos_left _ (by decide)), Nat.pow_add]

/-- Twice a magnitude is a magnitude, if maybe beyond the range. -/
theorem exists_units_two_mul (rank : Nat) : ∃ r, f.units r = 2 * f.units rank := by
  obtain ⟨step, j, hlow, hhigh, rfl⟩ := f.exists_significand rank
  rw [f.units_significand hlow (Nat.le_of_lt hhigh)]
  rcases Nat.lt_or_ge j (2 ^ f.fraction) with hshort | hlong
  case inl =>
    -- below the first binade twice the significand still fits
    have hfirst : step = 0 := hlow.resolve_right (Nat.not_le_of_lt hshort)
    refine ⟨0 * 2 ^ f.fraction + 2 * j, ?_⟩
    rw [f.units_significand (.inl rfl) (Nat.mul_le_mul_left 2 (Nat.le_of_lt hshort)), hfirst]
    ac_rfl
  case inr =>
    refine ⟨(step + 1) * 2 ^ f.fraction + j, ?_⟩
    rw [f.units_significand (.inr hlong) (Nat.le_of_lt hhigh), Nat.pow_succ]
    ac_rfl

theorem mul_two_pow_succ (m k : Nat) : m * 2 ^ (k + 1) = 2 * (m * 2 ^ k) := by
  rw [Nat.pow_succ]
  ac_rfl

theorem exists_units_mul_two_pow {m : Nat} (hm : m ≤ 2 * 2 ^ f.fraction) (k : Nat) :
    ∃ rank, f.units rank = m * 2 ^ k := by
  induction k with
  | zero => exact ⟨0 * 2 ^ f.fraction + m, f.units_significand (.inl rfl) hm⟩
  | succ k ih =>
    obtain ⟨rank, hrank⟩ := ih
    obtain ⟨r, hr⟩ := f.exists_units_two_mul rank
    exact ⟨r, by rw [hr, hrank, mul_two_pow_succ]⟩

/-- **A significand times a power of two is held**, unless it is beyond the range. -/
theorem holds_mul_two_pow {m k : Nat} (hm : m ≤ 2 * 2 ^ f.fraction) (hrange : m * 2 ^ k < f.units f.infinityRank) :
    f.Holds (m * 2 ^ k) := by
  obtain ⟨rank, hrank⟩ := exists_units_mul_two_pow hm k
  refine ⟨rank, ?_, hrank⟩
  rw [← hrank] at hrange
  exact f.units_strictMono.lt_iff_lt.mp hrange

/-- Every held magnitude has a significand. -/
theorem Holds.exists_significand {n : Nat} (h : f.Holds n) :
    ∃ m k, m < 2 * 2 ^ f.fraction ∧ m * 2 ^ k = n := by
  obtain ⟨rank, -, rfl⟩ := h
  obtain ⟨step, j, hlow, hhigh, rfl⟩ := f.exists_significand rank
  exact ⟨j, step, hhigh, (f.units_significand hlow (Nat.le_of_lt hhigh)).symm⟩

end Format

/-! ## Numbers by their magnitude -/

namespace Binary

open Format

variable {f g : Format} {m n k l : Nat}

/-- The number nearest to a count of units. -/
def ofUnits (negative : Bool) (n : Nat) : Binary f := round negative n 1

theorem ofNat_eq_ofUnits (n : Nat) : (Binary.ofNat n : Binary f) = ofUnits false (n * f.scale) := rfl

theorem one_eq_ofUnits : (one : Binary f) = ofUnits false f.scale := by
  rw [one, ofNat_eq_ofUnits, Nat.one_mul]

theorem ofUnits_units (negative : Bool) (rank : Fin f.infinityRank) :
    (ofUnits negative (f.units rank) : Binary f) = .finite negative rank := by
  have hrank := f.nearestRank_units rank Nat.one_pos
  rw [Nat.mul_one] at hrank
  rw [ofUnits, round, hrank, ofRank, dif_pos rank.isLt]

/-- A held quotient is not changed by rounding. -/
theorem round_mul (negative : Bool) (hn : f.Holds n) {den : Nat} (hden : 0 < den) :
    (round negative (n * den) den : Binary f) = ofUnits negative n := by
  obtain ⟨rank, hrank, rfl⟩ := hn
  rw [ofUnits_units negative ⟨rank, hrank⟩, round, f.nearestRank_units rank hden, ofRank, dif_pos hrank]

theorem exists_ofUnits (negative : Bool) (hn : f.Holds n) :
    ∃ rank : Fin f.infinityRank, f.units rank = n ∧ (ofUnits negative n : Binary f) = .finite negative rank := by
  obtain ⟨rank, hrank, rfl⟩ := hn
  exact ⟨⟨rank, hrank⟩, rfl, ofUnits_units negative ⟨rank, hrank⟩⟩

theorem units_ofUnits (negative : Bool) (hn : f.Holds n) : (ofUnits negative n : Binary f).units = n := by
  obtain ⟨rank, hrank, hnumber⟩ := exists_ofUnits negative hn
  rw [hnumber]
  exact hrank

theorem holds_units {x : Binary f} (hx : x.isFinite = true) : f.Holds x.units := by
  cases x with
  | nan | infinite => cases hx
  | finite negative rank => exact ⟨rank, rank.isLt, rfl⟩

theorem ofUnits_zero (hexponent : 0 < f.exponent) (negative : Bool) :
    (ofUnits negative 0 : Binary f) = ofRank negative 0 := by
  have hzero := ofUnits_units negative ⟨0, infinityRank_pos hexponent⟩
  rw [units_zero] at hzero
  rw [hzero, ofRank, dif_pos (infinityRank_pos hexponent)]

/-! ### Sign, sum and difference -/

theorem neg_ofUnits (negative : Bool) (hn : f.Holds n) :
    (ofUnits negative n : Binary f).neg = ofUnits (!negative) n := by
  obtain ⟨rank, rfl, hnumber⟩ := exists_ofUnits negative hn
  rw [hnumber, ofUnits_units]
  rfl

/-- A sum that is not negative. Only two negative zeros have a negative zero as their sum. -/
theorem add_eq_ofUnits (hexponent : 0 < f.exponent) {s t : Bool} {a b : Fin f.infinityRank} (hsign : (s && t) = false)
    (hsum : signedUnits (.finite s a : Binary f) + signedUnits (.finite t b : Binary f) = (n : Int)) :
    (Binary.finite s a : Binary f).add (.finite t b) = ofUnits false n := by
  show (if _ then ofRank (s && t) 0 else round _ _ 1) = _
  rw [hsum, hsign]
  by_cases hzero : n = 0
  case pos =>
    rw [if_pos (by rw [hzero]; rfl), hzero, ofUnits_zero hexponent]
  case neg =>
    rw [if_neg (by omega), decide_eq_false (by omega), Int.natAbs_natCast, ofUnits]

theorem add_ofUnits (hexponent : 0 < f.exponent) (hm : f.Holds m) (hn : f.Holds n) :
    (ofUnits false m : Binary f).add (ofUnits false n) = ofUnits false (m + n) := by
  obtain ⟨a, rfl, ha⟩ := exists_ofUnits false hm
  obtain ⟨b, rfl, hb⟩ := exists_ofUnits false hn
  rw [ha, hb]
  exact add_eq_ofUnits hexponent rfl (Int.natCast_add _ _).symm

theorem sub_ofUnits (hexponent : 0 < f.exponent) (hm : f.Holds m) (hn : f.Holds n) (hle : n ≤ m) :
    (ofUnits false m : Binary f).sub (ofUnits false n) = ofUnits false (m - n) := by
  obtain ⟨a, rfl, ha⟩ := exists_ofUnits false hm
  obtain ⟨b, rfl, hb⟩ := exists_ofUnits false hn
  rw [ha, hb]
  -- a difference is the sum with the opposite number
  exact add_eq_ofUnits hexponent rfl (Int.ofNat_sub hle).symm

/-! ### Powers of two -/

theorem twice_ofUnits (negative : Bool) (hn : f.Holds n) :
    (ofUnits negative n : Binary f).twice = ofUnits negative (2 * n) := by
  obtain ⟨rank, rfl, hnumber⟩ := exists_ofUnits negative hn
  rw [hnumber]
  rfl

theorem half_ofUnits (negative : Bool) (hn : f.Holds n) (htwice : f.Holds (2 * n)) :
    (ofUnits negative (2 * n) : Binary f).half = ofUnits negative n := by
  obtain ⟨rank, hrank, hnumber⟩ := exists_ofUnits negative htwice
  rw [hnumber, half, hrank, Nat.mul_comm, round_mul negative hn (by decide)]

/-- The early stop does not change what is iterated. -/
theorem iterate_eq (step : Binary f → Binary f) (n : Nat) (x : Binary f) : iterate step n x = step^[n] x := by
  induction n generalizing x with
  | zero => rfl
  | succ n ih =>
    rw [iterate]
    split
    -- a number that one step does not change is not changed by more of them
    case isTrue hfixed => exact (Function.iterate_fixed hfixed (n + 1)).symm
    case isFalse => rw [ih, Function.iterate_succ_apply]

theorem range_of_exponent_le (h : k ≤ l) (hrange : m * 2 ^ l < f.units f.infinityRank) :
    m * 2 ^ k < f.units f.infinityRank :=
  Nat.lt_of_le_of_lt (Nat.mul_le_mul_left m (Nat.pow_le_pow_right (by decide) h)) hrange

variable (hm : m ≤ 2 * 2 ^ f.fraction)
include hm

/-- A significand is held with every smaller power of two. -/
theorem holds_of_exponent_le (h : k ≤ l) (hrange : m * 2 ^ l < f.units f.infinityRank) : f.Holds (m * 2 ^ k) :=
  holds_mul_two_pow hm (range_of_exponent_le h hrange)

/-- Doubling, the last time after the others. -/
theorem iterate_twice_ofUnits (negative : Bool) (hrange : m * 2 ^ (k + n) < f.units f.infinityRank) :
    twice^[n] (ofUnits negative (m * 2 ^ k) : Binary f) = ofUnits negative (m * 2 ^ (k + n)) := by
  induction n with
  | zero => rfl
  | succ n ih =>
    have hheld := holds_of_exponent_le hm (Nat.le_succ (k + n)) hrange
    have hbelow := range_of_exponent_le (Nat.le_succ (k + n)) hrange
    rw [Function.iterate_succ_apply', ih hbelow, twice_ofUnits negative hheld, ← mul_two_pow_succ]
    rfl

/-- Halving, the first time before the others: what is halved is always even. -/
theorem iterate_half_ofUnits (negative : Bool) (hrange : m * 2 ^ (k + n) < f.units f.infinityRank) :
    half^[n] (ofUnits negative (m * 2 ^ (k + n)) : Binary f) = ofUnits negative (m * 2 ^ k) := by
  induction n with
  | zero => rfl
  | succ n ih =>
    have hheld := holds_of_exponent_le hm (Nat.le_succ (k + n)) hrange
    have htop := holds_of_exponent_le hm (Nat.le_refl (k + (n + 1))) hrange
    have hbelow := range_of_exponent_le (Nat.le_succ (k + n)) hrange
    rw [← Nat.add_assoc, mul_two_pow_succ] at htop ⊢
    rw [Function.iterate_succ_apply, half_ofUnits negative hheld htop, ih hbelow]

/-- **Scaling by a power of two is exact** between magnitudes within the range. -/
theorem scaleBy_ofUnits (negative : Bool) {e : Int} (he : (k : Int) + e = l)
    (hk : m * 2 ^ k < f.units f.infinityRank) (hl : m * 2 ^ l < f.units f.infinityRank) :
    (ofUnits negative (m * 2 ^ k) : Binary f).scaleBy e = ofUnits negative (m * 2 ^ l) := by
  unfold scaleBy
  split
  case isTrue hup =>
    obtain rfl : l = k + e.toNat := by omega
    rw [iterate_eq, iterate_twice_ofUnits hm negative hl]
  case isFalse hdown =>
    obtain rfl : k = l + e.natAbs := by omega
    rw [iterate_eq, iterate_half_ofUnits hm negative hk]

end Binary

/-! ## Formats within a format -/

namespace Format

open Binary

/-- Every finite number of `f` is held by `g`, whose unit is smaller by `2 ^ shift`. -/
structure Embeds (f g : Format) (shift : Nat) : Prop where
  fraction_le : f.fraction ≤ g.fraction
  scale_eq : g.scale = 2 ^ shift * f.scale
  range_le : f.units f.infinityRank * 2 ^ shift ≤ g.units g.infinityRank

variable {f g : Format} {shift n : Nat}

namespace Embeds

theorem refl (f : Format) : f.Embeds f 0 where
  fraction_le := Nat.le_refl _
  scale_eq := (Nat.one_mul _).symm
  range_le := Nat.le_of_eq (Nat.mul_one _)

variable (h : f.Embeds g shift)
include h

theorem units_lt {rank : Nat} (hrank : rank < f.infinityRank) :
    f.units rank * 2 ^ shift < g.units g.infinityRank :=
  Nat.lt_of_lt_of_le (Nat.mul_lt_mul_of_pos_right (f.units_strictMono hrank) (Nat.two_pow_pos shift)) h.range_le

theorem holds (hn : f.Holds n) : g.Holds (n * 2 ^ shift) := by
  obtain ⟨m, k, hm, rfl⟩ := hn.exists_significand
  obtain ⟨rank, hrank, hunits⟩ := hn
  -- the significand is the same, and the power of two is larger by the shift
  have hwide : m ≤ 2 * 2 ^ g.fraction :=
    Nat.le_trans (Nat.le_of_lt hm) (Nat.mul_le_mul_left 2 (Nat.pow_le_pow_right (by decide) h.fraction_le))
  have hbelow := h.units_lt hrank
  rw [hunits, Nat.mul_assoc, ← Nat.pow_add] at hbelow
  rw [Nat.mul_assoc, ← Nat.pow_add]
  exact holds_mul_two_pow hwide hbelow

/-- **Conversion to the wide format only counts in its units.** -/
theorem convert_finite (negative : Bool) (rank : Fin f.infinityRank) :
    (Binary.finite negative rank : Binary f).convert = (ofUnits negative (f.units rank * 2 ^ shift) : Binary g) := by
  show round negative (f.units rank * g.scale) f.scale = _
  rw [h.scale_eq, ← Nat.mul_assoc]
  exact round_mul negative (h.holds ⟨rank, rank.isLt, rfl⟩) (scale_pos f)

/-- **Conversion there and back gives the number again.** -/
theorem convert_convert (x : Binary f) : (x.convert : Binary g).convert = x := by
  cases x with
  | nan | infinite => rfl
  | finite negative rank =>
    have hheld : f.Holds (f.units rank) := ⟨rank, rank.isLt, rfl⟩
    obtain ⟨wide, hunits, hnumber⟩ := exists_ofUnits negative (h.holds hheld)
    rw [h.convert_finite, hnumber]
    show round negative (g.units wide * f.scale) g.scale = _
    -- the way back divides by what the way there multiplied with
    rw [hunits, Nat.mul_assoc, ← h.scale_eq, round_mul negative hheld (scale_pos g), ofUnits_units]

end Embeds

theorem Embeds.convert_self (x : Binary f) : (x.convert : Binary f) = x := by
  cases x with
  | nan | infinite => rfl
  | finite negative rank =>
    rw [(Embeds.refl f).convert_finite, Nat.pow_zero, Nat.mul_one, ofUnits_units]

/-! ### Within doubles -/

theorem double_scale : double.scale = 2 ^ 1074 := by
  rw [scale, show double.bias + double.fraction - 1 = 1074 by decide]

theorem double_units_infinityRank : double.units double.infinityRank = 2 ^ 2098 := by
  rw [units_infinityRank (by decide), show double.fraction + (double.topExponent - 1) = 2098 by decide]

/-- Numbers with a short significand are far from the end of the range. -/
theorem double_range {m k : Nat} (hm : m ≤ 2 ^ 53) (hk : k < 2045) :
    m * 2 ^ k < double.units double.infinityRank := by
  rw [double_units_infinityRank]
  calc m * 2 ^ k ≤ 2 ^ 53 * 2 ^ k := Nat.mul_le_mul_right _ hm
    _ = 2 ^ (53 + k) := (Nat.pow_add 2 53 k).symm
    _ < 2 ^ 2098 := Nat.pow_lt_pow_right (by decide) (by omega)

theorem significand_le_double {m : Nat} (h : m ≤ 2 ^ 53) : m ≤ 2 * 2 ^ double.fraction := h

theorem double_holds {m k : Nat} (hm : m ≤ 2 ^ 53) (hk : k < 2045) : double.Holds (m * 2 ^ k) :=
  holds_mul_two_pow (significand_le_double hm) (double_range hm hk)

theorem double_holds_scale : double.Holds double.scale := by
  have hone := double_holds (m := 1) (k := double.bias + double.fraction - 1) (by decide) (by decide)
  rwa [Nat.one_mul] at hone

/-- How much larger than that of doubles the unit of a format is, as a power of two. -/
def doubleShift (f : Format) : Nat := 1075 - (f.bias + f.fraction)

/-- **A format that doubles can hold**: at most eleven bits of exponent and fifty-two of significand. -/
structure Narrow (f : Format) : Prop where
  exponent_pos : 0 < f.exponent
  exponent_le : f.exponent ≤ 11
  fraction_pos : 0 < f.fraction
  fraction_le : f.fraction ≤ 52

theorem narrow_single : single.Narrow := ⟨by decide, by decide, by decide, by decide⟩

theorem narrow_double : double.Narrow := ⟨by decide, by decide, by decide, by decide⟩

namespace Narrow

variable (h : f.Narrow)
include h

theorem bias_le : f.bias ≤ 1023 :=
  Nat.sub_le_sub_right (Nat.pow_le_pow_right (by decide) (Nat.sub_le_sub_right h.exponent_le 1)) 1

/-- **Doubles hold the numbers of a narrow format.** -/
theorem embeds : f.Embeds double f.doubleShift := by
  have hbias := h.bias_le
  have hfraction := h.fraction_le
  have hfraction' := h.fraction_pos
  have hhalf : 0 < 2 ^ (f.exponent - 1) := Nat.two_pow_pos _
  have htop : 2 ^ f.exponent = 2 * 2 ^ (f.exponent - 1) := by
    rw [← Nat.pow_succ', Nat.succ_eq_add_one, Nat.sub_add_cancel h.exponent_pos]
  constructor
  case fraction_le => exact hfraction
  case scale_eq =>
    rw [double_scale, scale, ← Nat.pow_add]
    congr 1
    unfold doubleShift
    omega
  case range_le =>
    -- above one there are as many exponents as there are below, so the bias bounds both ends
    rw [double_units_infinityRank, units_infinityRank h.exponent_pos, ← Nat.pow_add]
    apply Nat.pow_le_pow_right (by decide)
    unfold doubleShift topExponent
    unfold bias at hbias ⊢
    omega

end Narrow

end Format

end FieldTree
