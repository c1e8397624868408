import SchemaCodec.Text.Whitespace

/-!
# Hexadecimal text

A byte is written as two lower-case digits. Reading is laxer: white space may stand anywhere, a
mark `0x` in front is skipped, and digits may be upper-case. What reading accepts is therefore fixed
by its two halves, the cleaning of the text and the reading of plain digits.
-/

namespace SchemaCodec.Hex

/-- The digit of a value below sixteen, in lower case. -/
def digit (n : Nat) : Char := Nat.digitChar n

/-- The value of a digit in either case. -/
def digitValue? (c : Char) : Option Nat :=
  if '0' ≤ c ∧ c ≤ '9' then some (c.toNat - '0'.toNat)
  else if 'a' ≤ c ∧ c ≤ 'f' then some (c.toNat - 'a'.toNat + 10)
  else if 'A' ≤ c ∧ c ≤ 'F' then some (c.toNat - 'A'.toNat + 10)
  else none

/-! ## Writing -/

/-- The two digits of a byte, the high half first. -/
def digits (byte : UInt8) : List Char := [digit (byte.toNat / 16), digit (byte.toNat % 16)]

def encode (bytes : List UInt8) : String := String.ofList (bytes.flatMap digits)

/-! ## Reading -/

/-- The digits of a text: white space is removed everywhere, then a mark `0x` in front. -/
def plainDigits (text : String) : List Char :=
  match text.toList.filter fun c ↦ !Text.isWhitespace c with
  | '0' :: 'x' :: rest => rest
  | cs => cs

/-- The bytes of plain digits, the latest first, put in front of earlier ones. -/
def readOnto : List Char → (read : List UInt8) → Option (List UInt8)
  | [], read => some read
  | high :: low :: rest, read => do
    let high ← digitValue? high
    let low ← digitValue? low
    readOnto rest (UInt8.ofNat (16 * high + low) :: read)
  | [_], _ => none

def decode? (text : String) : Option (List UInt8) :=
  (readOnto (plainDigits text) []).map List.reverse

end SchemaCodec.Hex
