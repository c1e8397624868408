import SchemaCodec.Decimal.Integer
import SchemaCodec.Decimal.Rounding

/-!
# Decimals read step by step

A number of a JSON text is not read as one exact quotient. Its digits are gathered into a 64-bit
word, the word is rounded to a binary64, and the result is multiplied or divided by a power of ten
that is itself rounded. Each step is exact up to its own rounding, but the steps together may miss
the nearest number by a few units, and a number within reach of the greatest one may overflow.
`Decimal.toBinary64` is the nearest number; this module is what a reader makes of the digits.
-/

namespace SchemaCodec

namespace Binary64

/-- The product of two finite numbers without signs, rounded. -/
def times (x y : Binary64) : Binary64 :=
  UInt64.ofNat (Decimal.roundQuotient (x.magnitude.1 * y.magnitude.1)
    (x.magnitude.2 * y.magnitude.2))

/-- The quotient of two finite numbers without signs, the second positive, rounded. -/
def dividedBy (x y : Binary64) : Binary64 :=
  UInt64.ofNat (Decimal.roundQuotient (x.magnitude.1 * y.magnitude.2)
    (x.magnitude.2 * y.magnitude.1))

end Binary64

namespace Decimal

/-- The power of ten, rounded. -/
def powerOfTen (n : Nat) : Binary64 := toBinary64 false 1 n

/-- The greatest power of ten that a binary64 holds. -/
def greatestPower : Nat := 308

/-- Appends digits to a significand for as long as it fits a 64-bit word; the count says how many
were appended. -/
def gather (significand taken : Nat) : List Char → Nat × Nat
  | [] => (significand, taken)
  | c :: rest =>
    let next := appendDigit significand c
    if next < Nat.pow 2 64 then gather next (taken + 1) rest else (significand, taken)

/-- A 64-bit word scaled by a power of ten, unless the result is too large for a number. Beyond two
divisions by the greatest power nothing is left of a word. -/
def scale? (significand : Nat) (exponent : Int) : Option Binary64 :=
  let x : Binary64 := UInt64.ofNat (roundQuotient significand 1)
  if 0 ≤ exponent then
    if exponent ≤ greatestPower then
      let y := x.times (powerOfTen exponent.toNat)
      if y.isFinite then some y else none
    else if significand = 0 then some 0
    else none
  else
    let places := (-exponent).toNat
    if places ≤ greatestPower then some (x.dividedBy (powerOfTen places))
    else if places ≤ 2 * greatestPower then
      let rest := powerOfTen (places - greatestPower)
      some ((x.dividedBy (powerOfTen greatestPower)).dividedBy rest)
    else some 0

/-- The number that whole digits, fraction digits and an exponent are read as, unless it is too
large. Whole digits that no longer fit the word still count as places; fraction digits after one
that does not fit are without effect. -/
def readStepwise? (negative : Bool) (whole fraction : List Char) (exponent : Int) :
    Option Binary64 :=
  let (significand, taken) := gather 0 0 whole
  let (significand, placed) := gather significand 0 fraction
  (scale? significand (exponent + ((whole.length - taken : Nat) : Int) - placed)).map fun x ↦
    signed negative x.toNat

end Decimal

end SchemaCodec
