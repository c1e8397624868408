import SchemaCodec.Decimal.Stepwise
import SchemaCodec.Hex
import SchemaCodec.Json.Basic

/-!
# JSON texts, read

The grammar is that of RFC 8259 without extensions, over characters. Arrays and objects may nest
`maxNesting` deep, and the recursion is on the levels that remain, so the limit is also the measure.
Within one level a loop reads one part after another; each part takes at least one character, so
no loop runs longer than the text, whose length bounds all of them.
-/

namespace SchemaCodec.Json

/-- How deep arrays and objects may nest in a text. -/
def maxNesting : Nat := 127

/-- Characters that may stand between tokens. -/
def isBlank (c : Char) : Bool := c = ' ' || c = '\n' || c = '\t' || c = '\r'

def skipBlank (cs : List Char) : List Char := cs.dropWhile isBlank

/-! ## Strings -/

/-- The value of four hexadecimal digits. -/
def unit? (a b c d : Char) : Option Nat := do
  let a ← Hex.digitValue? a
  let b ← Hex.digitValue? b
  let c ← Hex.digitValue? c
  let d ← Hex.digitValue? d
  some (((a * 16 + b) * 16 + c) * 16 + d)

/-- The character that a single unit stands for; surrogates stand for none. -/
def charOfUnit? (n : Nat) : Option Char :=
  if 0xd800 ≤ n ∧ n < 0xe000 then none else some (Char.ofNat n)

/-- The character that a pair of surrogates stands for. -/
def charOfPair? (high low : Nat) : Option Char :=
  if 0xd800 ≤ high ∧ high < 0xdc00 ∧ 0xdc00 ≤ low ∧ low < 0xe000 then
    some (Char.ofNat (0x10000 + (high - 0xd800) * 0x400 + (low - 0xdc00)))
  else none

/-- The character that a letter after a backslash stands for. -/
def escaped? (c : Char) : Option Char :=
  match c with
  | '"' => some '"'
  | '\\' => some '\\'
  | '/' => some '/'
  | 'b' => some '\x08'
  | 'f' => some '\x0c'
  | 'n' => some '\n'
  | 'r' => some '\r'
  | 't' => some '\t'
  | _ => none

/-- Reads a string after its opening quote; `read` holds its characters, the latest first. -/
def readString (read : List Char) : List Char → Option (String × List Char)
  | [] => none
  | '"' :: rest => some (String.ofList read.reverse, rest)
  | '\\' :: 'u' :: a :: b :: c :: d :: rest =>
    match unit? a b c d with
    | none => none
    | some high =>
      match charOfUnit? high with
      | some ch => readString (ch :: read) rest
      | none =>
        -- half of a pair is no character without the other half
        match rest with
        | '\\' :: 'u' :: e :: f :: g :: h :: rest =>
          match (unit? e f g h).bind (charOfPair? high) with
          | some ch => readString (ch :: read) rest
          | none => none
        | _ => none
  | '\\' :: c :: rest =>
    match escaped? c with
    | some ch => readString (ch :: read) rest
    | none => none
  | c :: rest => if c.toNat < 0x20 ∨ c = '\\' then none else readString (c :: read) rest

/-! ## Numbers -/

/-- The parts of a number: whole digits, fraction digits if there is a point, and the exponent if
there is one. -/
structure NumberParts where
  negative : Bool
  whole : List Char
  fraction : Option (List Char)
  exponent : Option Int

def digitRun (cs : List Char) : List Char × List Char :=
  (cs.takeWhile Char.isDigit, cs.dropWhile Char.isDigit)

def digitRun? (cs : List Char) : Option (List Char × List Char) :=
  let (digits, rest) := digitRun cs
  if digits.isEmpty then none else some (digits, rest)

/-- The digits before the point: a zero stands alone. -/
def wholePart? : List Char → Option (List Char × List Char)
  | '0' :: rest => some (['0'], rest)
  | cs => digitRun? cs

/-- The digits after the point, if there is a point. -/
def fractionPart? : List Char → Option (Option (List Char) × List Char)
  | '.' :: rest => (digitRun? rest).map fun (digits, rest) ↦ (some digits, rest)
  | cs => some (none, cs)

/-- A signed run of digits. -/
def signedRun? : List Char → Option (Int × List Char)
  | '-' :: rest => (digitRun? rest).map fun (ds, rest) ↦ (-(Decimal.foldDigits 0 ds : Int), rest)
  | '+' :: rest => (digitRun? rest).map fun (ds, rest) ↦ ((Decimal.foldDigits 0 ds : Int), rest)
  | cs => (digitRun? cs).map fun (ds, rest) ↦ ((Decimal.foldDigits 0 ds : Int), rest)

/-- The exponent, if there is one. -/
def exponentPart? : List Char → Option (Option Int × List Char)
  | 'e' :: rest | 'E' :: rest => (signedRun? rest).map fun (e, rest) ↦ (some e, rest)
  | cs => some (none, cs)

def numberParts? (cs : List Char) : Option (NumberParts × List Char) := do
  let (negative, cs) := match cs with
    | '-' :: rest => (true, rest)
    | cs => (false, cs)
  let (whole, cs) ← wholePart? cs
  let (fraction, cs) ← fractionPart? cs
  let (exponent, cs) ← exponentPart? cs
  some (⟨negative, whole, fraction, exponent⟩, cs)

/-- The float that the parts of a number are read as, unless it is too large for one. -/
def NumberParts.float? (parts : NumberParts) : Option Binary64 :=
  Decimal.readStepwise? parts.negative parts.whole (parts.fraction.getD [])
    (parts.exponent.getD 0)

/-- The number that the parts denote. Without fraction and exponent it is an integer if a 64-bit
word holds it; `-0` is a float. -/
def NumberParts.number? (parts : NumberParts) : Option JsonNumber :=
  let whole := Decimal.foldDigits 0 parts.whole
  if parts.fraction.isNone && parts.exponent.isNone && !parts.negative && whole < Nat.pow 2 64 then
    some (.integer whole)
  else if parts.fraction.isNone && parts.exponent.isNone && parts.negative
      && 0 < whole && whole ≤ Nat.pow 2 63 then
    some (.integer (-(whole : Int)))
  else parts.float?.map .float

/-! ## Values -/

/-- Takes a fixed word from the front. -/
def word? (word : String) (json : Json) (cs : List Char) : Option (Json × List Char) :=
  if word.toList.isPrefixOf cs then some (json, cs.drop word.length) else none

/-- Reads the items of an array up to its bracket, each by a reader for its position; `read` holds
the latest first. -/
def readItems (value : Nat → List Char → Option (Json × List Char)) :
    (fuel position : Nat) → (read : List Json) → List Char → Option (Json × List Char)
  | 0, _, _, _ => none
  | fuel + 1, position, read, cs => do
    let (item, cs) ← value position cs
    match skipBlank cs with
    | ',' :: cs => readItems value fuel (position + 1) (item :: read) cs
    | ']' :: cs => some (.array (item :: read).reverse, cs)
    | _ => none

/-- Reads the members of an object up to its brace, each by a reader for its key; `read` holds the
latest first. -/
def readMembers (value : String → List Char → Option (Json × List Char)) :
    (fuel : Nat) → (read : List (String × Json)) → List Char → Option (Json × List Char)
  | 0, _, _ => none
  | fuel + 1, read, cs =>
    match skipBlank cs with
    | '"' :: cs => do
      let (key, cs) ← readString [] cs
      match skipBlank cs with
      | ':' :: cs => do
        let (json, cs) ← value key cs
        match skipBlank cs with
        | ',' :: cs => readMembers value fuel ((key, json) :: read) cs
        | '}' :: cs => some (.object ((key, json) :: read).reverse, cs)
        | _ => none
      | _ => none
    | _ => none

/-- Reads a value that may hold `levels` further levels of arrays and objects, from a text of at
most `length` characters. -/
def readValue (length : Nat) : (levels : Nat) → List Char → Option (Json × List Char)
  | levels, cs =>
    match skipBlank cs with
    | '[' :: cs =>
      match levels with
      | 0 => none
      | levels + 1 =>
        match skipBlank cs with
        | ']' :: rest => some (.array [], rest)
        | _ => readItems (fun _ ↦ readValue length levels) length 0 [] cs
    | '{' :: cs =>
      match levels with
      | 0 => none
      | levels + 1 =>
        match skipBlank cs with
        | '}' :: rest => some (.object [], rest)
        | _ => readMembers (fun _ ↦ readValue length levels) length [] cs
    | '"' :: cs => (readString [] cs).map fun (s, rest) ↦ (.string s, rest)
    | 'n' :: cs => word? "ull" .null cs
    | 't' :: cs => word? "rue" (.bool true) cs
    | 'f' :: cs => word? "alse" (.bool false) cs
    | cs => do
      let (parts, rest) ← numberParts? cs
      let n ← parts.number?
      some (.number n, rest)

/-- What a reader of one value makes of a text that holds the value and blanks. -/
def ofWhole (value : List Char → Option (Json × List Char)) (s : String) : Option Json :=
  match value s.toList with
  | some (json, rest) => if (skipBlank rest).isEmpty then some json else none
  | none => none

/-- Reads a text that holds one value and blanks. Every member of an object is kept. -/
def parse? (s : String) : Option Json := ofWhole (readValue s.toList.length maxNesting) s

/-- Reads a text; of members with one key the last wins. -/
def read? (s : String) : Option Json := (parse? s).map normal

/-- What is said of a text that is refused. It stands for the words of a reader that tells faults
apart and says where they are, so no result is about these words. -/
def refusal : String := "the text cannot be read"

end SchemaCodec.Json
