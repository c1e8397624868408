/-!
# Decimal integers in text

An integer too large for a JSON number travels as a decimal text. Reading admits one sign and
underscores among the digits, but not in front of them.
-/

namespace SchemaCodec.Decimal

def digitValue (c : Char) : Nat := c.toNat - '0'.toNat

def appendDigit (n : Nat) (c : Char) : Nat := n * 10 + digitValue c

/-- The number written by a run of digits, on top of what stands before it. -/
def foldDigits (n : Nat) (digits : List Char) : Nat := digits.foldl appendDigit n

/-- Reads digits and underscores up to the end of the text. -/
def readDigits (n : Nat) : List Char → Option Nat
  | [] => some n
  | c :: rest =>
    if c.isDigit then readDigits (appendDigit n c) rest
    else if c = '_' then readDigits n rest
    else none

/-- Reads a natural number, which starts with a digit. -/
def readNat? : List Char → Option Nat
  | [] => none
  | c :: rest => if c.isDigit then readDigits 0 (c :: rest) else none

/-- Reads an integer with an optional sign. -/
def readInt? (s : String) : Option Int :=
  match s.toList with
  | '-' :: rest => (readNat? rest).map fun n ↦ -(n : Int)
  | '+' :: rest => (readNat? rest).map Int.ofNat
  | cs => (readNat? cs).map Int.ofNat

def natText (n : Nat) : String := String.ofList (Nat.toDigits 10 n)

def intText (i : Int) : String := if i < 0 then "-" ++ natText i.natAbs else natText i.natAbs

end SchemaCodec.Decimal
