import FieldTree.Binary.Basic

/-!
# Arithmetic on Binary Floating-Point Numbers

Every operation takes the exact result and rounds it once, ties to the even rank. Repeated doubling and
halving therefore rounds at each step, which matters only where a halving leaves the normal range.
-/

namespace FieldTree.Binary

variable {f : Format}

/-- The number one. -/
def one : Binary f := ofNat 1

/-- The number of the opposite sign. -/
def neg : Binary f → Binary f
  | .nan => .nan
  | .infinite negative => .infinite !negative
  | .finite negative rank => .finite (!negative) rank

/-- A finite number as an integer count of units. -/
def signedUnits (x : Binary f) : Int :=
  if x.isNegative then -(x.units : Int) else x.units

/-- Sum. Opposite numbers add to the positive zero. -/
def add : Binary f → Binary f → Binary f
  | .nan, _ => .nan
  | _, .nan => .nan
  | .infinite s, .infinite t => if s = t then .infinite s else .nan
  | .infinite s, .finite .. => .infinite s
  | .finite .., .infinite t => .infinite t
  | .finite s a, .finite t b =>
    let sum := signedUnits (.finite s a) + signedUnits (.finite t b)
    if sum = 0 then ofRank (s && t) 0 else round (decide (sum < 0)) sum.natAbs 1

/-- Difference. -/
def sub (x y : Binary f) : Binary f := x.add y.neg

/-- Product of finite numbers, and NaN otherwise. -/
def mul : Binary f → Binary f → Binary f
  | .finite s a, .finite t b => round (s != t) (f.units a * f.units b) f.scale
  | _, _ => .nan

/-- Quotient of finite numbers whose second is not zero, and NaN otherwise. -/
def div : Binary f → Binary f → Binary f
  | .finite s a, .finite t b =>
    if b.val = 0 then .nan else round (s != t) (f.units a * f.scale) (f.units b)
  | _, _ => .nan

/-- Twice the number. -/
def twice : Binary f → Binary f
  | .finite negative rank => round negative (2 * f.units rank) 1
  | x => x

/-- Half the number. -/
def half : Binary f → Binary f
  | .finite negative rank => round negative (f.units rank) 2
  | x => x

/-- Applies `step` up to `n` times and stops early where it changes nothing. -/
def iterate (step : Binary f → Binary f) : Nat → Binary f → Binary f
  | 0, x => x
  | n + 1, x => if step x = x then x else iterate step n (step x)

/-- The number times `2 ^ e`, by repeated doubling or halving. -/
def scaleBy (x : Binary f) (e : Int) : Binary f :=
  if 0 ≤ e then iterate twice e.toNat x else iterate half e.natAbs x

/-- The magnitude to the nearest natural number below `2 ^ 64`, halves away from zero; a NaN gives
    zero. -/
def nearestNat : Binary f → Nat
  | .nan => 0
  | .infinite _ => 2 ^ 64 - 1
  | .finite _ rank => min (2 ^ 64 - 1) (Rounding.halfUp (f.units rank) f.scale)

end FieldTree.Binary
