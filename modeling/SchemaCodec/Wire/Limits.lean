import SchemaCodec.Wire.Error

/-!
# Limits of the wire format

Two bounds keep a short input from unfolding into a huge value: a value nests at most `maxDepth`
levels, and one decode produces at most one array element per input byte plus a fixed allowance.
An element that occupies input owns a byte that none of its nested elements own, so only elements
of no width draw on the allowance.
-/

namespace SchemaCodec.Wire

/-- How many levels a value may nest; a scalar has one level. -/
def maxDepth : Nat := 1024

/-- The array elements a decode may produce beyond one per input byte. -/
def zeroWidthAllowance : Nat := Nat.pow 2 20

/-- The number of elements a decode of `length` bytes may produce. -/
def elementBudget (length : Nat) : Nat := length + zeroWidthAllowance

/-- Takes `count` elements from what is left of a budget, before any of them is read. -/
def claim (budget count : Nat) : Except WireError Nat :=
  if budget < count then .error (.elementLimitExceeded count budget) else .ok (budget - count)

/-- One more than the greatest length or count an input may state. -/
def lengthBound : Nat := Nat.pow 2 64

/-- A stated length or count, if it is one. -/
def lengthOf (n : Int) : Except WireError Nat :=
  if 0 ≤ n ∧ n < lengthBound then .ok n.toNat else .error (.invalidLength n)

end SchemaCodec.Wire
