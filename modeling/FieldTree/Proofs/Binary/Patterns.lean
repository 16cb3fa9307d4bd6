import FieldTree.Proofs.Binary.Exact

/-!
# Interchange Patterns

A pattern without its sign is its exponent field before its significand field. Read as one number it is the
rank of a finite number, the rank of infinity, or beyond it, where the exponent field is all ones and the
significand field is not zero.

## Architecture

- `Format.IsNaNPattern`, `Format.rank_lt`: what the fields say about the rank.
- `Binary.bits_ofBits`, `Binary.ofBits_bits`: **a number and its pattern determine each other**, for numbers and
  patterns that are not a NaN's.
-/

namespace FieldTree

/-! ## Fields of a pattern -/

namespace Format

variable {f : Format} {w : Nat}

/-- Exponent field all ones and a significand field that is not zero. -/
def IsNaNPattern (f : Format) (w : Nat) : Prop :=
  w / 2 ^ f.fraction % 2 ^ f.exponent = f.topExponent ∧ w % 2 ^ f.fraction ≠ 0

instance : Decidable (f.IsNaNPattern w) := inferInstanceAs (Decidable (_ ∧ _))

/-- A pattern without its sign: the exponent field in front of the significand field. -/
theorem mod_signWeight (w : Nat) :
    w % f.signWeight = w / 2 ^ f.fraction % 2 ^ f.exponent * 2 ^ f.fraction + w % 2 ^ f.fraction := by
  rw [signWeight, Nat.pow_add, Nat.mod_mul, Nat.mul_comm, Nat.add_comm]

theorem exponentField_le (w : Nat) : w / 2 ^ f.fraction % 2 ^ f.exponent ≤ f.topExponent :=
  Nat.le_sub_one_of_lt (Nat.mod_lt _ (Nat.two_pow_pos _))

/-- From infinity on there are the patterns of one exponent. -/
theorem infinityRank_add : f.infinityRank + 2 ^ f.fraction = f.signWeight := by
  rw [infinityRank, signWeight, Nat.pow_add, Nat.mul_comm (2 ^ f.fraction), ← Nat.succ_mul, topExponent,
    Nat.succ_eq_add_one, Nat.sub_add_cancel (Nat.two_pow_pos _)]

theorem infinityRank_lt_signWeight : f.infinityRank < f.signWeight := by
  rw [← infinityRank_add]
  exact Nat.lt_add_of_pos_right (Nat.two_pow_pos _)

theorem sign_add_mod (negative : Bool) {rank : Nat} (h : rank < f.signWeight) :
    ((if negative then f.signWeight else 0) + rank) % f.signWeight = rank := by
  cases negative with
  | false => rw [if_neg Bool.false_ne_true, Nat.zero_add, Nat.mod_eq_of_lt h]
  | true => rw [if_pos rfl, Nat.add_mod_left, Nat.mod_eq_of_lt h]

theorem sign_add_div (negative : Bool) {rank : Nat} (h : rank < f.signWeight) :
    ((if negative then f.signWeight else 0) + rank) / f.signWeight = if negative then 1 else 0 := by
  cases negative with
  | false => rw [if_neg Bool.false_ne_true, Nat.zero_add, Nat.div_eq_of_lt h, if_neg Bool.false_ne_true]
  | true =>
    have hpos : 0 < f.signWeight := Nat.two_pow_pos _
    rw [if_pos rfl, Nat.add_div_left _ hpos, Nat.div_eq_of_lt h, if_pos rfl]

/-- Below the exponent of all ones a pattern is the rank of a finite number. -/
theorem rank_lt {exponent significand : Nat} (hexponent : exponent < f.topExponent)
    (hsignificand : significand < 2 ^ f.fraction) : exponent * 2 ^ f.fraction + significand < f.infinityRank :=
  calc exponent * 2 ^ f.fraction + significand < exponent * 2 ^ f.fraction + 2 ^ f.fraction :=
        Nat.add_lt_add_left hsignificand _
    _ = (exponent + 1) * 2 ^ f.fraction := (Nat.succ_mul _ _).symm
    _ ≤ f.infinityRank := Nat.mul_le_mul_right _ hexponent

/-- The patterns behind infinity are those of NaNs. -/
theorem isNaNPattern_iff : f.IsNaNPattern w ↔ f.infinityRank < w % f.signWeight := by
  rw [mod_signWeight, IsNaNPattern]
  rcases Nat.lt_or_eq_of_le (exponentField_le (f := f) w) with hless | htop
  case inl =>
    -- a smaller exponent ends in front of infinity
    have hfinite := rank_lt hless (Nat.mod_lt w (Nat.two_pow_pos f.fraction))
    exact ⟨fun h => absurd h.1 (Nat.ne_of_lt hless), fun h => absurd h (Nat.lt_asymm hfinite)⟩
  case inr =>
    -- with the exponent of all ones the significand counts from infinity on
    rw [htop, infinityRank]
    exact ⟨fun h => Nat.lt_add_of_pos_right (Nat.pos_of_ne_zero h.2),
      fun h => ⟨rfl, Nat.ne_of_gt (Nat.pos_of_lt_add_right h)⟩⟩

end Format

/-! ## Interchange patterns -/

namespace Binary

open Format

variable {f : Format} {w : Nat}

theorem ofBits_of_isNaNPattern (h : f.IsNaNPattern w) : (ofBits w : Binary f) = .nan :=
  if_pos (isNaNPattern_iff.mp h)

theorem ofBits_of_not_isNaNPattern (h : ¬f.IsNaNPattern w) :
    (ofBits w : Binary f) = ofRank (w / f.signWeight % 2 == 1) (w % f.signWeight) :=
  if_neg fun hless => h (isNaNPattern_iff.mpr hless)

theorem ofRank_infinityRank (negative : Bool) : (ofRank negative f.infinityRank : Binary f) = .infinite negative :=
  dif_neg (Nat.lt_irrefl _)

theorem bits_ofRank (negative : Bool) {rank : Nat} (h : rank ≤ f.infinityRank) :
    (ofRank negative rank : Binary f).bits = (if negative then f.signWeight else 0) + rank := by
  unfold ofRank
  split
  case isTrue => rfl
  case isFalse hmore =>
    obtain rfl : rank = f.infinityRank := by omega
    rfl

/-- **The number of a pattern has this pattern.** -/
theorem bits_ofBits (hw : w < 2 * f.signWeight) (h : ¬f.IsNaNPattern w) : (ofBits w : Binary f).bits = w := by
  have hrank : w % f.signWeight ≤ f.infinityRank := Nat.le_of_not_lt fun hless => h (isNaNPattern_iff.mpr hless)
  have hsign : w / f.signWeight < 2 := Nat.div_lt_of_lt_mul (by rwa [Nat.mul_comm])
  have hsplit := Nat.div_add_mod w f.signWeight
  rw [ofBits_of_not_isNaNPattern h, bits_ofRank _ hrank]
  -- above the sign there are no bits
  generalize w / f.signWeight = sign at hsign hsplit ⊢
  match sign, hsign with
  | 0, _ =>
    rw [Nat.mul_zero] at hsplit
    exact hsplit
  | 1, _ =>
    rw [Nat.mul_one] at hsplit
    exact hsplit

theorem not_isNaNPattern_of_mod_le (h : w % f.signWeight ≤ f.infinityRank) : ¬f.IsNaNPattern w :=
  fun hnan => Nat.not_lt_of_le h (isNaNPattern_iff.mp hnan)

/-- A sign and a rank are read as the number that they are. -/
theorem ofBits_sign_add (negative : Bool) {rank : Nat} (h : rank ≤ f.infinityRank) :
    (ofBits ((if negative then f.signWeight else 0) + rank) : Binary f) = ofRank negative rank := by
  have hless := Nat.lt_of_le_of_lt h infinityRank_lt_signWeight
  have hnumber := not_isNaNPattern_of_mod_le (Nat.le_trans (Nat.le_of_eq (sign_add_mod negative hless)) h)
  rw [ofBits_of_not_isNaNPattern hnumber, sign_add_mod negative hless, sign_add_div negative hless]
  cases negative <;> rfl

theorem bits_nan_lt (hfraction : 0 < f.fraction) : (.nan : Binary f).bits < f.signWeight := by
  have hquiet : 2 ^ (f.fraction - 1) < 2 ^ f.fraction := Nat.pow_lt_pow_right (by decide) (by omega)
  rw [← infinityRank_add]
  exact Nat.add_lt_add_left hquiet _

/-- **The pattern of a number is read as this number.** -/
theorem ofBits_bits (hfraction : 0 < f.fraction) (x : Binary f) : (ofBits x.bits : Binary f) = x := by
  cases x with
  | nan =>
    apply ofBits_of_isNaNPattern
    rw [isNaNPattern_iff, Nat.mod_eq_of_lt (bits_nan_lt hfraction), bits]
    exact Nat.lt_add_of_pos_right (Nat.two_pow_pos _)
  | infinite negative =>
    rw [bits, ofBits_sign_add negative (Nat.le_refl _), ofRank_infinityRank]
  | finite negative rank =>
    rw [bits, ofBits_sign_add negative (Nat.le_of_lt rank.isLt), ofRank, dif_pos rank.isLt]

/-- A pattern has as many bits as its format. -/
theorem bits_lt (hfraction : 0 < f.fraction) (x : Binary f) : x.bits < 2 * f.signWeight := by
  have hrange : f.infinityRank < f.signWeight := infinityRank_lt_signWeight
  have hsign (negative : Bool) : (if negative then f.signWeight else 0) ≤ f.signWeight := by
    cases negative with
    | false => exact Nat.zero_le _
    | true => exact Nat.le_refl _
  -- the sign takes up one weight, and what stands below it less than another
  cases x with
  | nan =>
    have hless := bits_nan_lt hfraction
    omega
  | infinite negative =>
    have hle := hsign negative
    rw [bits]
    omega
  | finite negative rank =>
    have hle := hsign negative
    have hrank := rank.isLt
    rw [bits]
    omega

end Binary

end FieldTree
