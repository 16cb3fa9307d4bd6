import FieldTree.Rounding

/-!
# Decimal Text

Natural numbers and quotients in decimal. A quotient is written with a given number of places after the
point, either positionally or with an exponent; its exact value is rounded once, halves to the even digit.

## Main statements

- `Decimal.ofDigits_digits`: the digits of a number spell it.
- `Decimal.length_padded`: padding reaches the width asked for.
-/

namespace FieldTree.Decimal

/-- The decimal digits of a natural number, without leading zeros. -/
def digits (n : Nat) : List Char := Nat.toDigits 10 n

/-- The digits of `n`, with zeros in front up to `width` characters. -/
def padded (width n : Nat) : List Char :=
  List.replicate (width - (digits n).length) '0' ++ digits n

/-- The number that decimal digits spell. -/
def ofDigits (ds : List Char) : Nat := Nat.ofDigitChars 10 ds 0

@[simp] theorem ofDigits_digits (n : Nat) : ofDigits (digits n) = n :=
  Nat.ofDigitChars_ten_toDigits

theorem length_padded {width n : Nat} (h : (digits n).length ≤ width) :
    (padded width n).length = width := by
  simp [padded]; omega

/-- An integer in decimal. -/
def integer (v : Int) : List Char :=
  if v < 0 then '-' :: digits v.natAbs else digits v.natAbs

/-! ## Quotients -/

/-- A whole number of units of the last place, with the point before the last `places` digits. -/
def withPoint (places n : Nat) : List Char :=
  digits (n / 10 ^ places) ++ '.' :: padded places (n % 10 ^ places)

/-- `num / den` with `places` digits after the point. -/
def fixed (places num den : Nat) : List Char :=
  withPoint places (Rounding.halfEven (num * 10 ^ places) den)

/-- `num / den` times `10 ^ e`, again as a quotient. -/
def timesPower (num den : Nat) (e : Int) : Nat × Nat :=
  if 0 ≤ e then (num * 10 ^ e.toNat, den) else (num, den * 10 ^ e.natAbs)

/-- The power of ten at or below a positive quotient. -/
def exponent (num den : Nat) : Int :=
  let guess : Int := (digits num).length - (digits den).length
  let (n, d) := timesPower num den (-guess)
  if d ≤ n then guess else guess - 1

/-- A positive quotient as `m * 10 ^ (e - places)` with `places + 1` digits in `m`. -/
def normalized (places num den : Nat) : Nat × Int :=
  let e := exponent num den
  let (n, d) := timesPower num den (places - e)
  let m := Rounding.halfEven n d
  if m = 10 ^ (places + 1) then (10 ^ places, e + 1) else (m, e)

/-- `num / den` with one digit before the point, `places` after it, and an exponent with its sign and at
    least two digits. -/
def scientific (places num den : Nat) : List Char :=
  let (m, e) := if num = 0 then (0, 0) else normalized places num den
  withPoint places m ++ 'e' :: (if e < 0 then '-' else '+') :: padded 2 e.natAbs

end FieldTree.Decimal
