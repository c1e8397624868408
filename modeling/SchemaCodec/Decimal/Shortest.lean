import SchemaCodec.Decimal.Integer
import SchemaCodec.Decimal.Rounding

/-!
# The shortest decimal that reads back

A finite number is written with the fewest digits that are read back as the same number, and among
those with the digits nearest to it. For each length the only candidates are the two neighbours of
the number on the grid of that length, and a candidate counts only if reading returns the number
itself, so what is written always reads back.
-/

namespace SchemaCodec.Decimal

/-- The significand and the power of ten of a decimal. -/
structure Scaled where
  digits : Nat
  exponent : Int
deriving DecidableEq, Repr

/-- `num / den` divided by a power of ten, as a quotient. -/
def scaleByTen (num den : Nat) (exponent : Int) : Nat × Nat :=
  if 0 ≤ exponent then (num, den * Nat.pow 10 exponent.toNat)
  else (num * Nat.pow 10 (-exponent).toNat, den)

/-- The exponent of the leading decimal digit of `num / den`: an estimate from the binary length,
mended by at most one in each direction. -/
def leadingExponent (num den : Nat) : Int :=
  let estimate := (((num.log2 : Int) - den.log2) * 30103) / 100000
  let reaches (e : Int) : Bool :=
    let (n, d) := scaleByTen num den e
    d ≤ n
  if reaches (estimate + 1) then estimate + 1
  else if reaches estimate then estimate
  else estimate - 1

/-- The decimal of `length` digits that is nearest to the number, among those that read back. -/
def candidate? (x : Binary64) (num den : Nat) (lead : Int) (length : Nat) : Option Scaled :=
  let exponent := lead - length + 1
  let (n, d) := scaleByTen num den exponent
  let lower := n / d
  let readsBack (digits : Nat) : Bool := toBinary64 x.isNegative digits exponent = x
  let upperIsNearer := decide (d < 2 * (n % d) ∨ (2 * (n % d) = d ∧ lower % 2 = 1))
  let nearer := if upperIsNearer then lower + 1 else lower
  let farther := if upperIsNearer then lower else lower + 1
  if readsBack nearer then some ⟨nearer, exponent⟩
  else if readsBack farther then some ⟨farther, exponent⟩
  else none

/-- The shortest decimal of a finite number other than zero, without its sign. -/
def shortest (x : Binary64) : Scaled :=
  let (num, den) := x.magnitude
  let lead := leadingExponent num den
  ((List.range 17).findSome? fun n ↦ candidate? x num den lead (n + 1)).getD ⟨0, 0⟩

/-- Moves trailing zeros of the digits into the exponent, at most `room` of them. -/
def trim : (room : Nat) → Scaled → Scaled
  | 0, d => d
  | room + 1, d => if d.digits % 10 = 0 then trim room ⟨d.digits / 10, d.exponent + 1⟩ else d

/-! ## Layout -/

/-- Where positional notation begins and ends, by the exponent of the leading digit. -/
structure Layout where
  least : Int
  greatest : Int

/-- Numbers are written positionally from `0.00001` up to sixteen places before the point. -/
def Layout.standard : Layout := ⟨-5, 15⟩

/-- A decimal in positional notation, always with a fraction. -/
def positional (digits : String) (lead : Int) : String :=
  if lead < 0 then "0." ++ String.ofList (List.replicate (-lead - 1).toNat '0') ++ digits
  else
    let whole := lead.toNat + 1
    let cs := digits.toList
    if cs.length ≤ whole then
      digits ++ String.ofList (List.replicate (whole - cs.length) '0') ++ ".0"
    else String.ofList (cs.take whole) ++ "." ++ String.ofList (cs.drop whole)

/-- A decimal in scientific notation: a sign on the exponent, no padding, no empty fraction. -/
def scientific (digits : String) (lead : Int) : String :=
  let fraction := digits.toList.drop 1
  String.ofList (digits.toList.take 1) ++
    (if fraction.isEmpty then "" else "." ++ String.ofList fraction) ++
    (if lead < 0 then "e-" else "e+") ++ natText lead.natAbs

def floatText (x : Binary64) : String :=
  let sign := if x.isNegative then "-" else ""
  if x.isNaN then "NaN"
  else if !x.isFinite then sign ++ "inf"
  else if x.isZero then sign ++ "0.0"
  else
    let d := trim 17 (shortest x)
    let digits := natText d.digits
    let lead := d.exponent + (digits.length : Int) - 1
    let layout := Layout.standard
    sign ++ (if layout.least ≤ lead ∧ lead ≤ layout.greatest then positional digits lead
      else scientific digits lead)

end SchemaCodec.Decimal
