import SchemaCodec.Wire.Error

/-!
# Integers of any size as seven-bit groups

An integer is written as the seven-bit groups of its two's complement form, most significant
first. Only the last byte carries the end mark `0x80`. Bit `0x40` of the first byte is the sign:
reading starts from `-1` when it is set, so a negative number needs no group for its sign alone.
Writing stops as soon as what is left fits one group, that is, lies in `-64 … 63`.
-/

namespace SchemaCodec.Groups

/-- The mark of the last byte. -/
def endMark : UInt8 := 0x80

def signBit : UInt8 := 0x40

/-- The seven bits that belong to the number. -/
def groupMask : UInt8 := 0x7f

/-- The lowest group of an integer. -/
def low (n : Int) : UInt8 := UInt8.ofNat (n % 128).toNat

/-- Puts all groups of `n`, most significant first, in front of `tail`. -/
def onto (n : Int) (tail : List UInt8) : List UInt8 :=
  if -64 ≤ n ∧ n < 64 then low n :: tail else onto (n / 128) (low n :: tail)
termination_by n.natAbs

def write (n : Int) : List UInt8 :=
  let last := low n ||| endMark
  if -64 ≤ n ∧ n < 64 then [last] else onto (n / 128) [last]

/-- Reads groups up to the end mark, on top of what was read before. -/
def readOnto (read : Int) : List UInt8 → Except WireError (Int × List UInt8)
  | [] => .error .unterminatedInteger
  | byte :: rest =>
    let read := read * 128 + (byte &&& groupMask).toNat
    if byte &&& endMark = 0 then readOnto read rest else .ok (read, rest)

def read : List UInt8 → Except WireError (Int × List UInt8)
  | [] => .error (.unexpectedEnd 1 0)
  | byte :: rest => readOnto (if byte &&& signBit = 0 then 0 else -1) (byte :: rest)

end SchemaCodec.Groups
