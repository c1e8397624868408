/-!
# Classes of characters as ranges

A class of characters beyond a handful is a list of ranges of code points, first and last included,
in ascending order. The lists are data; what they are asked is only whether a character is in one of
the ranges.
-/

namespace SchemaCodec.Text

/-- Ranges of code points, first and last included. -/
abbrev Ranges := List (Nat × Nat)

def isWithin (ranges : Ranges) (c : Char) : Bool :=
  ranges.any fun (least, greatest) ↦ least ≤ c.toNat && c.toNat ≤ greatest

end SchemaCodec.Text
