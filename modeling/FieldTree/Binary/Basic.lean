import FieldTree.Rounding

/-!
# Binary Floating-Point Numbers

A format has a number of stored significand bits and a number of exponent bits. Its non-negative finite
numbers are all multiples of one unit, the smallest subnormal, and are counted by their *rank*: the
pattern of their exponent and significand bits read as one natural number. Rank and magnitude grow
together, which makes rounding and conversion plain arithmetic on natural numbers.

## Architecture

- `Format`: unit, rank and magnitude, and the rank nearest to a quotient.
- `Binary f`: the numbers of a format, with signed zeros, infinities and one NaN.
- `Binary.bits` and `Binary.ofBits`: the interchange pattern.
- `Binary.round`: the number nearest to a quotient of units, ties to the even rank.
- `Binary.convert`: from one format to another, rounding once.
-/

namespace FieldTree

/-! ## Formats -/

/-- A layout of sign, exponent and significand bits. -/
structure Format where
  /-- stored significand bits -/
  fraction : Nat
  /-- exponent bits -/
  exponent : Nat
  deriving DecidableEq, Repr

namespace Format

/-- The 32-bit interchange format. -/
def single : Format := ⟨23, 8⟩

/-- The 64-bit interchange format. -/
def double : Format := ⟨52, 11⟩

/-- What is added to an exponent before it is stored. -/
def bias (f : Format) : Nat := 2 ^ (f.exponent - 1) - 1

/-- The exponent field of infinities and NaNs. -/
def topExponent (f : Format) : Nat := 2 ^ f.exponent - 1

/-- The rank after that of the largest finite number. -/
def infinityRank (f : Format) : Nat := f.topExponent * 2 ^ f.fraction

/-- The weight of the sign bit. -/
def signWeight (f : Format) : Nat := 2 ^ (f.fraction + f.exponent)

/-- How many units make one. -/
def scale (f : Format) : Nat := 2 ^ (f.bias + f.fraction - 1)

/-- The magnitude of the number of a given rank, in units. -/
def units (f : Format) (rank : Nat) : Nat :=
  if rank / 2 ^ f.fraction = 0 then rank
  else (2 ^ f.fraction + rank % 2 ^ f.fraction) * 2 ^ (rank / 2 ^ f.fraction - 1)

/-- The rank whose magnitude is nearest to `num / den` units, ties to the even rank. A quotient below
    `2 ^ (fraction + 1)` is rounded to whole units; each further binade doubles the step. -/
def nearestRank (f : Format) (num den : Nat) : Nat :=
  let step := Nat.log2 (num / den) - f.fraction
  step * 2 ^ f.fraction + Rounding.halfEven num (den * 2 ^ step)

end Format

/-! ## Numbers -/

/-- A number of format `f`, or the one value that is not a number. -/
inductive Binary (f : Format) where
  | nan
  | infinite (negative : Bool)
  | finite (negative : Bool) (rank : Fin f.infinityRank)
  deriving DecidableEq, Repr

/-- Numbers in the 32-bit format. -/
abbrev Single := Binary .single

/-- Numbers in the 64-bit format. -/
abbrev Double := Binary .double

namespace Binary

variable {f g : Format}

/-- The number of a given sign and rank; infinite from `infinityRank` on. -/
def ofRank (negative : Bool) (rank : Nat) : Binary f :=
  if h : rank < f.infinityRank then .finite negative ⟨rank, h⟩ else .infinite negative

/-- The number nearest to `num / den` units. -/
def round (negative : Bool) (num den : Nat) : Binary f :=
  ofRank negative (f.nearestRank num den)

/-- The number nearest to `num / den`. -/
def ofRatio (negative : Bool) (num den : Nat) : Binary f :=
  round negative (num * f.scale) den

/-- The number nearest to a natural number. -/
def ofNat (n : Nat) : Binary f := ofRatio false n 1

/-- The number nearest to an integer. -/
def ofInt (v : Int) : Binary f := ofRatio (decide (v < 0)) v.natAbs 1

/-- The magnitude in units; zero where there is none. -/
def units : Binary f → Nat
  | .finite _ rank => f.units rank
  | _ => 0

/-- Neither infinite nor NaN. -/
def isFinite : Binary f → Bool
  | .finite .. => true
  | _ => false

/-- Whether the sign bit is set; a NaN counts as positive. -/
def isNegative : Binary f → Bool
  | .nan => false
  | .infinite negative => negative
  | .finite negative _ => negative

/-- Equality of values: the zeros are equal, and a NaN is equal to nothing. -/
def equals : Binary f → Binary f → Bool
  | .finite s a, .finite t b => (s == t && a == b) || (a.val == 0 && b.val == 0)
  | .infinite s, .infinite t => s == t
  | _, _ => false

/-! ## Patterns -/

/-- The interchange pattern; a NaN has its quiet bit set and no other. -/
def bits : Binary f → Nat
  | .nan => f.infinityRank + 2 ^ (f.fraction - 1)
  | .infinite negative => (if negative then f.signWeight else 0) + f.infinityRank
  | .finite negative rank => (if negative then f.signWeight else 0) + rank

/-- The number with a given interchange pattern. -/
def ofBits (w : Nat) : Binary f :=
  let rank := w % f.signWeight
  if f.infinityRank < rank then .nan
  else ofRank (w / f.signWeight % 2 == 1) rank

/-! ## Conversion -/

/-- The nearest number of another format. -/
def convert : Binary f → Binary g
  | .nan => .nan
  | .infinite negative => .infinite negative
  | .finite negative rank => round negative (f.units rank * g.scale) f.scale

/-- A double cut to a signed 64-bit integer: towards zero, to the nearest end where it does not fit, and
    zero for a NaN. -/
def truncate : Binary f → Int
  | .nan => 0
  | .infinite true => -2 ^ 63
  | .infinite false => 2 ^ 63 - 1
  | .finite true rank => max (-2 ^ 63) (-(f.units rank / f.scale : Nat))
  | .finite false rank => min (2 ^ 63 - 1) (f.units rank / f.scale : Nat)

end Binary

end FieldTree
