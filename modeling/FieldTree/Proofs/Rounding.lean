import FieldTree.Decimal.Nearest
import Mathlib.Data.Nat.Log

/-!
# Rounding is Monotone

A larger quotient is not rounded to a smaller number, whether it is rounded to a whole number or to a number
of a format. What is finite for the largest operands is therefore finite for all smaller ones, and one
computation at the end of a range settles the range.

## Architecture

- `Rounding.halfEven_mono`: whole numbers.
- `Format.units_significand`: magnitudes binade by binade.
- `Format.units_strictMono`, `Format.nearestRank_mono`: **rank and magnitude grow together, and with the quotient
  that is rounded.**
- `Format.nearestRank_units`: a magnitude of the format is not changed by rounding.
- `Binary.Below`: finite, and no larger than another number; kept by rounding and products.
- `Decimal.scaled_nonneg`, `Decimal.scaled_neg`: where a decimal has a double.
-/

namespace FieldTree

/-! ## Whole numbers -/

namespace Rounding

theorem div_le_halfEven (num den : Nat) : num / den ≤ halfEven num den := by
  simp only [halfEven]
  split
  · exact Nat.le_refl _
  · split
    · exact Nat.le_succ _
    · exact Nat.le_add_right _ _

theorem halfEven_le_succ (num den : Nat) : halfEven num den ≤ num / den + 1 := by
  simp only [halfEven]
  split
  · exact Nat.le_succ _
  · split
    · exact Nat.le_refl _
    · omega

/-- **A larger numerator is not rounded to a smaller number.** -/
theorem halfEven_mono {m n : Nat} (h : m ≤ n) (den : Nat) : halfEven m den ≤ halfEven n den := by
  rcases Nat.lt_or_eq_of_le (Nat.div_le_div_right (c := den) h) with hlow | hlow
  · -- there is a whole number between the two
    calc halfEven m den ≤ m / den + 1 := halfEven_le_succ m den
      _ ≤ n / den := hlow
      _ ≤ halfEven n den := div_le_halfEven n den
  · have hrest : m % den ≤ n % den := by
      have hm := Nat.div_add_mod m den
      have hn := Nat.div_add_mod n den
      rw [hlow] at hm
      omega
    simp only [halfEven, hlow]
    generalize n / den = low
    split
    · split
      · exact Nat.le_refl _
      · split <;> omega
    · rw [if_neg (show ¬2 * (n % den) < den by omega)]
      split
      · rw [if_pos (show den < 2 * (n % den) by omega)]
      · split <;> omega

/-- What is at most a whole number is not rounded beyond it. -/
theorem halfEven_le_of_le_mul {num den c : Nat} (hden : 0 < den) (h : num ≤ c * den) :
    halfEven num den ≤ c := by
  have hmono := halfEven_mono h den
  rwa [halfEven_mul_right c hden] at hmono

theorem le_halfEven_of_mul_le {num den c : Nat} (hden : 0 < den) (h : c * den ≤ num) :
    c ≤ halfEven num den := by
  have hmono := halfEven_mono h den
  rwa [halfEven_mul_right c hden] at hmono

end Rounding

/-! ## Numbers of a format -/

namespace Format

variable (f : Format)

/-- **The magnitude of a significand.** A significand weighs `2 ^ step` units. From the second binade on it has its
    leading bit; the end of one binade is the beginning of the next. -/
theorem units_significand {step j : Nat} (hlow : step = 0 ∨ 2 ^ f.fraction ≤ j)
    (hhigh : j ≤ 2 * 2 ^ f.fraction) :
    f.units (step * 2 ^ f.fraction + j) = j * 2 ^ step := by
  have hpos := Nat.two_pow_pos f.fraction
  simp only [units]
  generalize 2 ^ f.fraction = binade at hlow hhigh hpos ⊢
  -- below the leading bit there is the first binade only
  rcases Nat.lt_or_ge j binade with hshort | hlong
  · have hfirst : step = 0 := by omega
    subst hfirst
    rw [Nat.zero_mul, Nat.zero_add, if_pos (Nat.div_eq_of_lt hshort), Nat.pow_zero, Nat.mul_one]
  · have hsplit : step * binade + j = binade * (step + 1) + (j - binade) := by
      rw [Nat.mul_add binade step 1, Nat.mul_comm step binade]
      omega
    rw [hsplit, Nat.mul_add_div hpos, Nat.mul_add_mod]
    -- the end of a binade has no significand left, and counts as the start of the next
    rcases Nat.lt_or_eq_of_le hhigh with hinner | rfl
    · rw [Nat.div_eq_of_lt (by omega), Nat.mod_eq_of_lt (by omega), if_neg (Nat.succ_ne_zero step),
        Nat.add_sub_cancel' hlong]
      rfl
    · rw [show 2 * binade - binade = binade by omega, Nat.div_self hpos, Nat.mod_self,
        if_neg (Nat.succ_ne_zero (step + 1)), Nat.add_zero, Nat.add_sub_cancel, Nat.pow_succ]
      ac_rfl

/-- Every rank has a significand. -/
theorem exists_significand (rank : Nat) :
    ∃ step j, (step = 0 ∨ 2 ^ f.fraction ≤ j) ∧ j < 2 * 2 ^ f.fraction ∧
      step * 2 ^ f.fraction + j = rank := by
  have hpos := Nat.two_pow_pos f.fraction
  generalize 2 ^ f.fraction = binade at hpos ⊢
  have hrest := Nat.mod_lt rank hpos
  have hsplit := Nat.div_add_mod' rank binade
  cases hbinade : rank / binade with
  | zero =>
    rw [hbinade] at hsplit
    exact ⟨0, rank % binade, .inl rfl, by omega, hsplit⟩
  | succ step =>
    rw [hbinade, Nat.succ_mul] at hsplit
    exact ⟨step, binade + rank % binade, .inr (Nat.le_add_right _ _), by omega, by omega⟩

/-- Neighbours differ by the weight of a significand. -/
theorem units_lt_succ (rank : Nat) : f.units rank < f.units (rank + 1) := by
  obtain ⟨step, j, hlow, hhigh, rfl⟩ := f.exists_significand rank
  rw [Nat.add_assoc, f.units_significand hlow (Nat.le_of_lt hhigh),
    f.units_significand (hlow.imp_right (Nat.le_succ_of_le)) hhigh]
  exact Nat.mul_lt_mul_of_pos_right (Nat.lt_succ_self j) (Nat.two_pow_pos step)

/-- **A larger rank has a larger magnitude.** -/
theorem units_strictMono : StrictMono f.units := strictMono_nat_of_lt_succ f.units_lt_succ

theorem units_mono {r s : Nat} (h : r ≤ s) : f.units r ≤ f.units s := f.units_strictMono.monotone h

/-- How far above the first binades a quotient is. -/
def step (num den : Nat) : Nat := Nat.log2 (num / den) - f.fraction

/-- The step is the one for which the quotient has a significand. -/
theorem step_eq {num den step : Nat} (hden : 0 < den) (hlow : step = 0 ∨ 2 ^ f.fraction * (den * 2 ^ step) ≤ num)
    (hhigh : num < 2 * 2 ^ f.fraction * (den * 2 ^ step)) : f.step num den = step := by
  have habove : num / den < 2 ^ (f.fraction + step + 1) := by
    apply (Nat.div_lt_iff_lt_mul hden).mpr
    calc num < 2 * 2 ^ f.fraction * (den * 2 ^ step) := hhigh
      _ = 2 ^ (f.fraction + step + 1) * den := by rw [Nat.pow_succ, Nat.pow_add]; ac_rfl
  -- the quotient has no bit above its significand, and beyond the first binade it has the leading one
  have hless : (num / den).log2 < f.fraction + step + 1 := by
    by_cases hzero : num / den = 0
    · rw [hzero, Nat.log2_zero]
      exact Nat.succ_pos _
    · exact (Nat.log2_lt hzero).mpr habove
  rcases hlow with rfl | hlow
  · unfold Format.step
    omega
  · have hbelow : 2 ^ (f.fraction + step) ≤ num / den := by
      apply (Nat.le_div_iff_mul_le hden).mpr
      calc 2 ^ (f.fraction + step) * den = 2 ^ f.fraction * (den * 2 ^ step) := by rw [Nat.pow_add]; ac_rfl
        _ ≤ num := hlow
    have hmore := (Nat.le_log2 (Nat.ne_of_gt (Nat.lt_of_lt_of_le (Nat.two_pow_pos _) hbelow))).mpr hbelow
    unfold Format.step
    omega

/-- **The magnitude of a rank is rounded to that rank.** -/
theorem nearestRank_units (rank : Nat) {den : Nat} (hden : 0 < den) :
    f.nearestRank (f.units rank * den) den = rank := by
  obtain ⟨step, j, hlow, hhigh, rfl⟩ := f.exists_significand rank
  have hweight : 0 < den * 2 ^ step := Nat.mul_pos hden (Nat.two_pow_pos step)
  rw [f.units_significand hlow (Nat.le_of_lt hhigh), Nat.mul_assoc, Nat.mul_comm (2 ^ step) den]
  have hstep : f.step (j * (den * 2 ^ step)) den = step :=
    f.step_eq hden (hlow.imp_right (Nat.mul_le_mul_right _)) (Nat.mul_lt_mul_of_pos_right hhigh hweight)
  show f.step _ den * 2 ^ f.fraction + Rounding.halfEven _ (den * 2 ^ f.step _ den) = _
  rw [hstep, Rounding.halfEven_mul_right j hweight]

/-- A rounded significand does not reach beyond the end of its binade. -/
private theorem significand_le {num den : Nat} (hden : 0 < den) :
    Rounding.halfEven num (den * 2 ^ f.step num den) ≤ 2 * 2 ^ f.fraction := by
  apply Rounding.halfEven_le_of_le_mul (Nat.mul_pos hden (Nat.two_pow_pos _))
  have hquotient : num / den < 2 ^ (f.step num den + f.fraction + 1) :=
    Nat.lt_of_lt_of_le Nat.lt_log2_self (Nat.pow_le_pow_right (by decide) (by unfold step; omega))
  calc num ≤ 2 ^ (f.step num den + f.fraction + 1) * den :=
        Nat.le_of_lt ((Nat.div_lt_iff_lt_mul hden).mp hquotient)
    _ = 2 * 2 ^ f.fraction * (den * 2 ^ f.step num den) := by
        rw [Nat.pow_succ, Nat.pow_add]; ac_rfl

/-- Above the first binades a significand has its leading bit. -/
private theorem le_significand {num den : Nat} (hden : 0 < den) (h : 0 < f.step num den) :
    2 ^ f.fraction ≤ Rounding.halfEven num (den * 2 ^ f.step num den) := by
  apply Rounding.le_halfEven_of_mul_le (Nat.mul_pos hden (Nat.two_pow_pos _))
  have hlog : f.step num den + f.fraction = (num / den).log2 := by unfold step at h ⊢; omega
  have hquotient : num / den ≠ 0 := by
    intro hzero
    rw [hzero, Nat.log2_zero] at hlog
    omega
  calc 2 ^ f.fraction * (den * 2 ^ f.step num den) = 2 ^ (f.step num den + f.fraction) * den := by
        rw [Nat.pow_add]; ac_rfl
    _ ≤ num / den * den := by
        rw [hlog]
        exact Nat.mul_le_mul_right den (Nat.log2_self_le hquotient)
    _ ≤ num := Nat.div_mul_le_self num den

/-- **A larger quotient has no smaller nearest rank.** -/
theorem nearestRank_mono {m n den : Nat} (hden : 0 < den) (h : m ≤ n) :
    f.nearestRank m den ≤ f.nearestRank n den := by
  have hstep : f.step m den ≤ f.step n den := by
    apply Nat.sub_le_sub_right
    rw [Nat.log2_eq_log_two, Nat.log2_eq_log_two]
    exact Nat.log_mono_right (Nat.div_le_div_right h)
  show f.step m den * 2 ^ f.fraction + Rounding.halfEven m (den * 2 ^ f.step m den) ≤
    f.step n den * 2 ^ f.fraction + Rounding.halfEven n (den * 2 ^ f.step n den)
  -- in a higher binade the rank starts above all of the lower one; in the same one, rounding is monotone
  rcases Nat.lt_or_eq_of_le hstep with hless | hequal
  · have hhigh := f.le_significand hden (Nat.lt_of_le_of_lt (Nat.zero_le _) hless)
    calc f.step m den * 2 ^ f.fraction + Rounding.halfEven m (den * 2 ^ f.step m den)
        ≤ f.step m den * 2 ^ f.fraction + 2 * 2 ^ f.fraction :=
          Nat.add_le_add_left (f.significand_le hden) _
      _ = (f.step m den + 1) * 2 ^ f.fraction + 2 ^ f.fraction := by
          rw [Nat.two_mul, Nat.add_mul, Nat.one_mul, Nat.add_assoc]
      _ ≤ _ := Nat.add_le_add (Nat.mul_le_mul_right _ hless) hhigh
  · rw [hequal]
    exact Nat.add_le_add_left (Rounding.halfEven_mono h _) _

end Format

namespace Binary

variable {f : Format}

/-- A finite number whose magnitude is at most that of another finite number. -/
structure Below (x y : Binary f) : Prop where
  finite : x.isFinite = true
  units_le : x.units ≤ y.units

theorem isFinite_ofRank (negative : Bool) (rank : Nat) :
    (ofRank negative rank : Binary f).isFinite = decide (rank < f.infinityRank) := by
  unfold ofRank
  split
  · next h => rw [decide_eq_true h]; rfl
  · next h => rw [decide_eq_false h]; rfl

theorem units_ofRank (negative : Bool) {rank : Nat} (h : rank < f.infinityRank) :
    (ofRank negative rank : Binary f).units = f.units rank := by
  rw [ofRank, dif_pos h]
  rfl

/-- **A smaller quotient is rounded below.** -/
theorem Below.round {m n den : Nat} (hden : 0 < den) (h : m ≤ n) {s t : Bool}
    (hfinite : (Binary.round t n den : Binary f).isFinite = true) :
    (Binary.round s m den : Binary f).Below (Binary.round t n den) := by
  unfold Binary.round at hfinite ⊢
  rw [isFinite_ofRank, decide_eq_true_iff] at hfinite
  have hrank := f.nearestRank_mono hden h
  have hless := Nat.lt_of_le_of_lt hrank hfinite
  constructor
  · rw [isFinite_ofRank, decide_eq_true hless]
  · rw [units_ofRank s hless, units_ofRank t hfinite]
    exact f.units_mono hrank

theorem scale_pos (f : Format) : 0 < f.scale := Nat.two_pow_pos _

theorem mul_eq_round {x y : Binary f} (hx : x.isFinite = true) (hy : y.isFinite = true) :
    x.mul y = Binary.round (x.isNegative != y.isNegative) (x.units * y.units) f.scale := by
  cases x with
  | nan | infinite => cases hx
  | finite s a =>
    cases y with
    | nan | infinite => cases hy
    | finite t b => rfl

theorem convert_eq_round {g : Format} {x : Binary f} (h : x.isFinite = true) :
    (x.convert : Binary g) = Binary.round x.isNegative (x.units * g.scale) f.scale := by
  cases x with
  | nan | infinite => cases h
  | finite s a => rfl

/-- The operands of a finite product are finite. -/
theorem isFinite_of_mul {x y : Binary f} (h : (x.mul y).isFinite = true) :
    x.isFinite = true ∧ y.isFinite = true := by
  cases x with
  | nan | infinite => cases h
  | finite s a =>
    cases y with
    | nan | infinite => cases h
    | finite t b => exact ⟨rfl, rfl⟩

theorem isFinite_of_convert {g : Format} {x : Binary f} (h : (x.convert : Binary g).isFinite = true) :
    x.isFinite = true := by
  cases x with
  | nan | infinite => cases h
  | finite s a => rfl

/-- **The product of smaller numbers is below.** -/
theorem Below.mul {x x' y y' : Binary f} (hx : x.Below x') (hy : y.Below y')
    (hfinite : (x'.mul y').isFinite = true) : (x.mul y).Below (x'.mul y') := by
  obtain ⟨hx', hy'⟩ := isFinite_of_mul hfinite
  rw [mul_eq_round hx' hy'] at hfinite ⊢
  rw [mul_eq_round hx.finite hy.finite]
  exact Below.round (scale_pos f) (Nat.mul_le_mul hx.units_le hy.units_le) hfinite

/-- The conversion of a smaller number is below. -/
theorem Below.convert {g : Format} {x y : Binary f} (h : x.Below y)
    (hfinite : (y.convert : Binary g).isFinite = true) :
    (x.convert : Binary g).Below y.convert := by
  have hy := isFinite_of_convert hfinite
  rw [convert_eq_round hy] at hfinite ⊢
  rw [convert_eq_round h.finite]
  exact Below.round (scale_pos f) (Nat.mul_le_mul_right _ h.units_le) hfinite

theorem Below.ofNat {m n : Nat} (h : m ≤ n) (hfinite : (Binary.ofNat n : Binary f).isFinite = true) :
    (Binary.ofNat m : Binary f).Below (Binary.ofNat n) :=
  Below.round Nat.one_pos (Nat.mul_le_mul_right _ h) hfinite

/-- The largest finite number of a format. -/
def largest (f : Format) (h : 0 < f.infinityRank) : Binary f :=
  .finite false ⟨f.infinityRank - 1, Nat.sub_one_lt_of_lt h⟩

theorem Below.largest {x : Binary f} (hx : x.isFinite = true) (h : 0 < f.infinityRank) :
    x.Below (Binary.largest f h) := by
  cases x with
  | nan | infinite => cases hx
  | finite s rank => exact ⟨rfl, f.units_mono (Nat.le_sub_one_of_lt rank.isLt)⟩

end Binary

/-! ## Decimals -/

namespace Decimal

open Binary

theorem below_power {k l : Nat} (h : k ≤ l) (hfinite : (power l).isFinite = true) :
    (power k).Below (power l) :=
  Below.round Nat.one_pos (Nat.mul_le_mul_right _ (Nat.pow_le_pow_right (by decide) h)) hfinite

/-- **A whole decimal has a double if a larger one with a larger exponent has one.** -/
theorem scaled_nonneg {m n k l : Nat} (hm : m ≤ n) (hk : k ≤ l) (hl : l ≤ topPower)
    (hfinite : ((Binary.ofNat n : Double).mul (power l)).isFinite = true) :
    ∃ y, scaled (.ofNat m) k = some y := by
  obtain ⟨hn, hpower⟩ := isFinite_of_mul hfinite
  have hproduct := (Below.mul (Below.ofNat hm hn) (below_power hk hpower) hfinite).finite
  rw [scaled, if_pos (show (k : Int).natAbs ≤ topPower by omega), if_pos (Int.natCast_nonneg k),
    Int.toNat_natCast]
  cases hy : Binary.mul (.ofNat m : Double) (power k) with
  | infinite negative => rw [hy] at hproduct; cases hproduct
  | nan | finite => exact ⟨_, rfl⟩

/-- A decimal with places behind the point has a double. -/
theorem scaled_neg (x : Double) {e : Int} (he : e < 0) : ∃ y, scaled x e = some y := by
  fun_induction scaled x e with
  | case1 | case2 => omega
  | case3 => exact ⟨_, rfl⟩
  | case4 => exact ⟨_, rfl⟩
  | case5 => omega
  | case6 x e hlarge _ _ ih => exact ih (by omega)

end Decimal

end FieldTree
