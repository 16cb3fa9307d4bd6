/-!
# Rounding Quotients

A quotient of natural numbers is rounded to a natural number in one of two ways, which differ on exact
halves only: to the even neighbour, or away from zero.

## Main statements

- `Rounding.halfEven_mul_right`: a quotient that is a whole number is its own rounding.
-/

-- powers of numbers are those of core, also next to a library that has powers of its own
attribute [instance (20000), default_instance (20000)] instPowNat

namespace FieldTree.Rounding

/-- `num / den` to the nearest natural number, halves to the even one. -/
def halfEven (num den : Nat) : Nat :=
  let low := num / den
  let rest := num % den
  if 2 * rest < den then low
  else if den < 2 * rest then low + 1
  else low + low % 2

/-- `num / den` to the nearest natural number, halves away from zero. -/
def halfUp (num den : Nat) : Nat :=
  (2 * num + den) / (2 * den)

theorem halfEven_mul_right (n : Nat) {den : Nat} (h : 0 < den) : halfEven (n * den) den = n := by
  simp [halfEven, Nat.mul_div_cancel n h, h]

end FieldTree.Rounding
