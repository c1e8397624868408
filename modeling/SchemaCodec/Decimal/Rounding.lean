import SchemaCodec.Binary64

/-!
# From decimals to binary64

The number `digits · 10 ^ exponent` is rounded to the nearest binary64, a tie to the even
significand, in exact arithmetic on natural numbers: the quotient is scaled by the one power of two
that leaves a significand of 53 bits, or fewer when that power would fall below the least one.
-/

namespace SchemaCodec.Decimal

/-- The quotient rounded to the nearest number, a tie to the even one. -/
def roundDiv (num den : Nat) : Nat :=
  let quotient := num / den
  let twice := 2 * (num % den)
  if den < twice ∨ (twice = den ∧ quotient % 2 = 1) then quotient + 1 else quotient

/-- `num / den` divided by `2 ^ e`, rounded. -/
def roundScaled (num den : Nat) (e : Int) : Nat :=
  if 0 ≤ e then roundDiv num (den <<< e.toNat) else roundDiv (num <<< (-e).toNat) den

/-- The exponent of the power of two under which `num / den` has 53 bits before the point. -/
def unitExponent (num den : Nat) : Int :=
  let e : Int := (num.log2 : Int) - den.log2 - 52
  let isLarge :=
    if 0 ≤ e then (den <<< e.toNat) <<< 52 ≤ num else den <<< 52 ≤ num <<< (-e).toNat
  if isLarge then e else e - 1

/-- The bits of an infinity without its sign. -/
def infinity : Nat := 0x7ff <<< 52

/-- The bits of `num / den` rounded, without a sign. A significand that is rounded up to 54 bits
carries into the exponent by itself. -/
def roundQuotient (num den : Nat) : Nat :=
  if num = 0 then 0
  else
    let e := max (unitExponent num den) (-1074)
    min (((e + 1074).toNat <<< 52) + roundScaled num den e) infinity

/-- Puts the sign on bits without one. -/
def signed (negative : Bool) (bits : Nat) : Binary64 :=
  if negative then UInt64.ofNat bits ||| 0x8000000000000000 else UInt64.ofNat bits

/-- The number of decimal digits, `0` for zero. -/
def digitCount (n : Nat) : Nat := if n = 0 then 0 else (Nat.toDigits 10 n).length

/-- The binary64 nearest to `digits · 10 ^ exponent`. A number of more than 310 places before the
point is infinite and one below the 330th place after it is zero, whatever its digits. -/
def toBinary64 (negative : Bool) (digits : Nat) (exponent : Int) : Binary64 :=
  let places : Int := digitCount digits + exponent
  signed negative <|
    if digits = 0 ∨ places < -330 then 0
    else if 310 < places then infinity
    else if 0 ≤ exponent then roundQuotient (digits * Nat.pow 10 exponent.toNat) 1
    else roundQuotient digits (Nat.pow 10 (-exponent).toNat)

/-- The binary64 nearest to an integer. -/
def ofInt (i : Int) : Binary64 := toBinary64 (i < 0) i.natAbs 0

end SchemaCodec.Decimal
