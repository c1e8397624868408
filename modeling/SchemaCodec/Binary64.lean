/-!
# Binary floating-point numbers as bits

A float travels as its 64 bits, and nothing in this library adds or multiplies floats. It is kept
as a `UInt64`, so that a payload of a NaN and the sign of a zero survive by construction and every
statement about floats is a statement about words.
-/

namespace SchemaCodec

/-- The bits of a binary64 number. -/
abbrev Binary64 := UInt64

namespace Binary64

/-- The eleven exponent bits. -/
def biased (x : Binary64) : Nat := ((x >>> 52) &&& 0x7ff).toNat

/-- The fifty-two fraction bits. -/
def fraction (x : Binary64) : Nat := (x &&& 0xfffffffffffff).toNat

/-- Whether the sign bit is set, also for a zero and a NaN. -/
def isNegative (x : Binary64) : Bool := x >>> 63 = 1

def isNaN (x : Binary64) : Bool := x.biased = 0x7ff ∧ x.fraction ≠ 0

def isFinite (x : Binary64) : Bool := x.biased ≠ 0x7ff

def isZero (x : Binary64) : Bool := x.biased = 0 ∧ x.fraction = 0

/-- Numerical equality: a NaN equals nothing, and the two zeros are equal. -/
def sameNumber (x y : Binary64) : Bool :=
  !x.isNaN && !y.isNaN && (x = y || (x.isZero && y.isZero))

/-- A finite number without its sign is `significand · 2 ^ (scale - 1074)`. -/
def significand (x : Binary64) : Nat :=
  if x.biased = 0 then x.fraction else x.fraction + Nat.pow 2 52

/-- The power of two by which the significand exceeds the least positive number's unit. -/
def scale (x : Binary64) : Nat := x.biased - 1

/-- A finite number without its sign as a quotient. -/
def magnitude (x : Binary64) : Nat × Nat :=
  if 1074 ≤ x.scale then (x.significand <<< (x.scale - 1074), 1)
  else (x.significand, 1 <<< (1074 - x.scale))

/-- The eight bytes of `x`, most significant first. -/
def toBytes (x : Binary64) : List UInt8 :=
  [56, 48, 40, 32, 24, 16, 8, 0].map fun (shift : UInt64) ↦ (x >>> shift).toUInt8

/-- Reads bytes as one word, most significant first. -/
def ofBytes (bytes : List UInt8) : Binary64 :=
  bytes.foldl (fun word byte ↦ (word <<< 8) ||| byte.toUInt64) 0

end Binary64

end SchemaCodec
