import FieldTree.Bytes
import FieldTree.Decimal.Nearest

/-!
# Numbers at the Start of a Text

A text that stands where a number is wanted is read as far as it looks like one. Blanks in front are
skipped; what follows the number is ignored; a text without a number counts as zero.

## Architecture

- `Numeral.dropBlanks`: the blanks are the characters with the Unicode property `White_Space`.
- `Numeral.leadingInt`: decimal, `0x` hexadecimal or leading-zero octal, saturating at 64 bits.
- `Numeral.real?`: a text that is a decimal number as a whole, or one of the words for infinity and NaN.
- `Numeral.leadingReal`: the decimal number that the text starts with, or else the text as a whole.
-/

namespace FieldTree.Numeral

/-! ## Blanks and signs -/

/-- The characters with the Unicode property `White_Space`. -/
def isBlank (c : Char) : Bool :=
  let n := c.toNat
  (9 ≤ n && n ≤ 13) || n == 0x20 || n == 0x85 || n == 0xA0 || n == 0x1680 ||
    (0x2000 ≤ n && n ≤ 0x200A) || n == 0x2028 || n == 0x2029 || n == 0x202F || n == 0x205F ||
    n == 0x3000

/-- The text without the blanks in front. -/
def dropBlanks (text : List Char) : List Char := text.dropWhile isBlank

/-- Takes one sign off the front; true for a minus. -/
def takeSign : List Char → Bool × List Char
  | '-' :: rest => (true, rest)
  | '+' :: rest => (false, rest)
  | rest => (false, rest)

/-! ## Integers -/

/-- The value of a digit in radix 8, 10 or 16, if it is one. -/
def digitValue? (radix : Nat) (c : Char) : Option Nat :=
  let n := c.toNat
  let value? :=
    if '0' ≤ c ∧ c ≤ '9' then some (n - '0'.toNat)
    else if 'a' ≤ c ∧ c ≤ 'f' then some (n - 'a'.toNat + 10)
    else if 'A' ≤ c ∧ c ≤ 'F' then some (n - 'A'.toNat + 10)
    else none
  value?.filter (· < radix)

/-- Magnitudes do not grow beyond this bound, which is far outside the 64-bit range. -/
def magnitudeBound : Nat := 2 ^ 127 - 1

/-- The value of the digits at the front, held at `magnitudeBound`. -/
def leadingMagnitude (radix : Nat) : (sofar : Nat) → List Char → Nat
  | sofar, [] => sofar
  | sofar, c :: rest =>
    match digitValue? radix c with
    | none => sofar
    | some d => leadingMagnitude radix (min magnitudeBound (sofar * radix + d)) rest

/-- The radix that the front of a number asks for, and the digits after that mark. -/
def takeRadix : List Char → Nat × List Char
  | '0' :: 'x' :: rest => (16, rest)
  | '0' :: 'X' :: rest => (16, rest)
  | '0' :: c :: rest => (8, c :: rest)
  | rest => (10, rest)

/-- The nearest integer of 64 bits. -/
def clamp64 (v : Int) : Int := max (-2 ^ 63) (min (2 ^ 63 - 1) v)

/-- The integer at the start of a text; zero if there is none. -/
def leadingInt (text : List Char) : Int :=
  let (negative, rest) := takeSign (dropBlanks text)
  let (radix, ds) := takeRadix rest
  let magnitude : Int := leadingMagnitude radix 0 ds
  clamp64 (if negative then -magnitude else magnitude)

/-! ## Decimal numbers as whole texts -/

/-- Splits the decimal digits off the front. -/
def takeDigits (text : List Char) : List Char × List Char :=
  (text.takeWhile Char.isDigit, text.dropWhile Char.isDigit)

/-- Splits a point and the digits after it off the front; the point itself is left out. -/
def takeFraction : List Char → List Char × List Char
  | '.' :: rest => takeDigits rest
  | rest => ([], rest)

/-- The exponent that a text is: a mark, at most one sign, and digits. No text is the exponent zero. -/
def exponent? : List Char → Option Int
  | [] => some 0
  | c :: rest =>
    if c = 'e' ∨ c = 'E' then
      let (negative, ds) := takeSign rest
      if ds ≠ [] ∧ ds.all Char.isDigit then
        let value : Int := Decimal.ofDigits ds
        some (if negative then -value else value)
      else none
    else none

/-- The words for values that have no digits, in any case. -/
def special? (negative : Bool) (word : List Char) : Option Double :=
  let lower := word.map Char.toLower
  if lower = "inf".toList ∨ lower = "infinity".toList then some (.infinite negative)
  else if lower = "nan".toList then some .nan
  else none

/-- The double that a text spells as a whole, if it is a decimal number or one of the words. -/
def real? (text : List Char) : Option Double :=
  let (negative, rest) := takeSign text
  let (whole, afterWhole) := takeDigits rest
  let (fraction, afterFraction) := takeFraction afterWhole
  if whole = [] ∧ fraction = [] then special? negative rest
  else
    (exponent? afterFraction).map fun e =>
      Decimal.nearest negative (Decimal.ofDigits (whole ++ fraction)) (e - fraction.length)

/-! ## Decimal numbers at the front of a text -/

/-- Splits one sign off the front, if there is one. -/
def splitSign : List Char → List Char × List Char
  | '-' :: rest => (['-'], rest)
  | '+' :: rest => (['+'], rest)
  | rest => ([], rest)

/-- Splits a point and the digits after it off the front, if there is a point. -/
def splitFraction : List Char → List Char × List Char
  | '.' :: rest => ('.' :: (takeDigits rest).1, (takeDigits rest).2)
  | rest => ([], rest)

/-- Splits digits and a fraction off the front. -/
def splitMantissa (text : List Char) : List Char × List Char :=
  let (whole, afterWhole) := takeDigits text
  let (fraction, afterFraction) := splitFraction afterWhole
  (whole ++ fraction, afterFraction)

/-- Splits an exponent off the front. A mark without digits behind it is given back. -/
def splitExponent : List Char → List Char × List Char
  | [] => ([], [])
  | c :: rest =>
    if c = 'e' ∨ c = 'E' then
      let (sign, afterSign) := splitSign rest
      let (ds, afterDigits) := takeDigits afterSign
      if ds = [] then ([], c :: rest) else (c :: (sign ++ ds), afterDigits)
    else ([], c :: rest)

/-- The decimal number at the front of a text, as far as it goes; none if it has no digit before an exponent. -/
def leadingNumeral? (text : List Char) : Option (List Char) :=
  let (sign, afterSign) := splitSign text
  let (mantissa, afterMantissa) := splitMantissa afterSign
  if mantissa = [] ∨ mantissa = ['.'] then none
  else some (sign ++ mantissa ++ (splitExponent afterMantissa).1)

/-- The real number at the start of a text; a text without a decimal number there is read as a whole, and counts as
    zero if it is none of the words either. -/
def leadingReal (text : List Char) : Double :=
  let rest := dropBlanks text
  (real? ((leadingNumeral? rest).getD rest)).getD (.ofRank false 0)

end FieldTree.Numeral
