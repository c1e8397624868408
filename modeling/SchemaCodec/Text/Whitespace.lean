/-!
# White space

The characters that carry the property `White_Space`. The set is larger than the one the core
library knows: it has the separators beyond ASCII too, among them the no-break space.
-/

namespace SchemaCodec.Text

/-- The white space beyond ASCII, by code point. -/
def wideSpaces : List Nat :=
  [0x85, 0xa0, 0x1680, 0x2000, 0x2001, 0x2002, 0x2003, 0x2004, 0x2005, 0x2006, 0x2007, 0x2008,
    0x2009, 0x200a, 0x2028, 0x2029, 0x202f, 0x205f, 0x3000]

def isWhitespace (c : Char) : Bool :=
  c = ' ' || (9 ≤ c.toNat && c.toNat ≤ 13) || wideSpaces.contains c.toNat

/-- What the core library takes for white space is white space. -/
theorem isWhitespace_of_isWhitespace {c : Char} (h : c.isWhitespace) : isWhitespace c := by
  simp only [Char.isWhitespace, Bool.or_eq_true, decide_eq_true_eq] at h
  rcases h with ((rfl | rfl) | rfl) | rfl <;> decide

end SchemaCodec.Text
