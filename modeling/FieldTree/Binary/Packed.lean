import FieldTree.Binary.Arithmetic

/-!
# Packed Patterns

Doubles travel as bit patterns of any format. Both directions build the result by arithmetic on the
value and never look at the double's own pattern, so the same pattern results however a number is held.

## Architecture

- `Format.pack`: brings the magnitude into `[1, 2)` by halving or doubling, then rounds the significand
  to the format's width, halves away from zero. Too large a number packs as infinity, too small a one as
  a zero of its sign.
- `Format.unpack`: scales the significand field back, in double precision at every step.
-/

namespace FieldTree

namespace Binary

/-- Halves a number while it is two or more, at most `steps` times, and counts the halvings. -/
def halveBelowTwo : (steps : Nat) → Double → Double × Nat
  | 0, x => (x, 0)
  | steps + 1, x =>
    if x.units < 2 * Format.double.scale then (x, 0)
    else
      let (y, n) := halveBelowTwo steps x.half
      (y, n + 1)

/-- Doubles a number while it is below one, at most `steps` times, and counts the doublings. -/
def doubleToOne : (steps : Nat) → Double → Double × Nat
  | 0, x => (x, 0)
  | steps + 1, x =>
    if Format.double.scale ≤ x.units then (x, 0)
    else
      let (y, n) := doubleToOne steps x.twice
      (y, n + 1)

/-- A positive number as `m * 2 ^ e` with `1 ≤ m < 2`. No double is more than 1074 halvings or doublings
    away from that range. -/
def normalize (x : Double) : Double × Int :=
  let (y, halvings) := halveBelowTwo 1074 x
  let (z, doublings) := doubleToOne 1074 y
  (z, (halvings : Int) - doublings)

end Binary

namespace Format

/-- The pattern of format `f` for a positive finite double. -/
def packMagnitude (f : Format) (x : Double) : Nat :=
  let (m, shift) := x.normalize
  let exponent := shift + f.bias
  if exponent ≤ 0 then
    -- a carry out of the significand gives the smallest normal number
    (m.scaleBy (exponent - 1 + f.fraction)).nearestNat
  else
    let significand := ((m.sub .one).scaleBy f.fraction).nearestNat
    let carried := significand == 2 ^ f.fraction
    let exponent := if carried then exponent + 1 else exponent
    let significand := if carried then 0 else significand
    if (f.topExponent : Int) ≤ exponent then f.infinityRank
    else exponent.toNat * 2 ^ f.fraction + significand

/-- The pattern of format `f` nearest to a double. -/
def pack (f : Format) : Double → Nat
  | .nan => f.infinityRank + 2 ^ (f.fraction - 1)
  | .infinite negative => (if negative then f.signWeight else 0) + f.infinityRank
  | .finite negative rank =>
    (if negative then f.signWeight else 0) +
      if rank.val = 0 then 0 else f.packMagnitude (.finite false rank)

/-- The magnitude that an exponent and a significand field stand for. -/
def unpackMagnitude (f : Format) (exponent significand : Nat) : Double :=
  let ratio := (Binary.ofNat significand : Double).scaleBy (-f.fraction)
  if exponent = f.topExponent then
    if significand = 0 then .infinite false else .nan
  else if exponent = 0 then
    ratio.scaleBy (1 - f.bias)
  else
    (ratio.add .one).scaleBy (exponent - f.bias)

/-- The double that a pattern of format `f` stands for. -/
def unpack (f : Format) (w : Nat) : Double :=
  let magnitude := f.unpackMagnitude (w / 2 ^ f.fraction % 2 ^ f.exponent) (w % 2 ^ f.fraction)
  if w / f.signWeight % 2 = 1 then magnitude.neg else magnitude

end Format

/-! ## The two interchange formats -/

/-- The 32-bit pattern of a single. -/
def Single.pack (x : Single) : Nat := Format.single.pack x.convert

/-- The single with a 32-bit pattern. -/
def Single.unpack (w : Nat) : Single := (Format.single.unpack w).convert

/-- The 64-bit pattern of a double. -/
def Double.pack (x : Double) : Nat := Format.double.pack x

/-- The double with a 64-bit pattern. -/
def Double.unpack (w : Nat) : Double := Format.double.unpack w

end FieldTree
