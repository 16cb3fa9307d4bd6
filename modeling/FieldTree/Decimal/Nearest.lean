import FieldTree.Binary.Arithmetic
import FieldTree.Decimal.Places

/-!
# The Double Nearest to a Decimal

A decimal is a natural number of units `10 ^ e`. `Decimal.nearest` rounds it to a double once.
`Decimal.scaled` is the other reading in use: the digits are rounded first and then multiplied or divided
by rounded powers of ten, which is faster on small machines and can be off by some units in the last
place.
-/

namespace FieldTree.Decimal

/-- The double nearest to `n * 10 ^ e`, ties to the even rank. Decimals far outside the range of a double
    are settled by their number of digits, without writing the power out. -/
def nearest (negative : Bool) (n : Nat) (e : Int) : Double :=
  let length : Int := (digits n).length
  if n = 0 then .ofRank negative 0
  else if 310 < length + e then .infinite negative
  else if length + e < -330 then .ofRank negative 0
  else
    let (num, den) := timesPower n 1 e
    .ofRatio negative num den

/-- The largest power of ten that a double can hold. -/
def topPower : Nat := 308

/-- The double nearest to `10 ^ k`. -/
def power (k : Nat) : Double := .ofRatio false (10 ^ k) 1

/-- A double times `10 ^ e` by multiplications and divisions with rounded powers of ten; nothing where
    the result would be infinite. -/
def scaled (x : Double) (e : Int) : Option Double :=
  if e.natAbs ≤ topPower then
    if 0 ≤ e then
      match x.mul (power e.toNat) with
      | .infinite _ => none
      | y => some y
    else some (x.div (power e.natAbs))
  else if x.units = 0 then some x
  else if 0 ≤ e then none
  else scaled (x.div (power topPower)) (e + topPower)
  termination_by e.natAbs
  decreasing_by simp only [topPower] at *; omega

end FieldTree.Decimal
