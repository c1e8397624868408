import SchemaCodec.Groups.Big

/-!
# Signed words as seven-bit groups

The same form for integers of 64 bits, by word arithmetic: groups are shifted out of a word, and
reading multiplies and adds with a check at each step. Ten groups hold any word, so writing is
bounded by that number and not by the value.
-/

namespace SchemaCodec.Groups.Word

/-- Groups enough for any word: 64 bits, seven a group. -/
def maxGroups : Nat := 10

/-- The word that equals an integer, if there is one. -/
def ofInt? (n : Int) : Option Int64 :=
  if (Int64.ofInt n).toInt = n then some (Int64.ofInt n) else none

def low (v : Int64) : UInt8 := (v &&& 0x7f).toUInt64.toUInt8

/-- Whether the bits above a group only repeat its sign bit. -/
def closes (group : UInt8) (above : Int64) : Bool :=
  if group &&& signBit = 0 then above = 0 else above = -1

/-- The groups above the lowest one, least significant first, at most `room` of them. -/
def higher : (room : Nat) → Int64 → List UInt8
  | 0, _ => []
  | room + 1, v =>
    if closes (low v) (v >>> 7) then [] else low (v >>> 7) :: higher room (v >>> 7)

/-- Appends the written form of a word to a buffer. -/
def write (v : Int64) (buffer : Array UInt8) : Array UInt8 :=
  ((higher (maxGroups - 1) v).foldr (fun group out ↦ out.push group) buffer).push
    (low v ||| endMark)

/-- Counts groups from the one below `above`, at most `room` more. -/
def countFrom : (room : Nat) → (group : UInt8) → (above : Int64) → Nat
  | 0, _, _ => 1
  | room + 1, group, above =>
    if closes group above then 1 else countFrom room (low above) (above >>> 7) + 1

/-- The number of bytes that `write` appends, without writing them. -/
def size (v : Int64) : Nat := countFrom (maxGroups - 1) (low v) (v >>> 7)

/-- Shifts a word by one group and adds the group, unless the result leaves the range. -/
def extend? (v : Int64) (byte : UInt8) : Option Int64 := do
  let shifted ← ofInt? (v.toInt * 128)
  ofInt? (shifted.toInt + (byte &&& groupMask).toNat)

/-- Reads groups from position `pos` up to the end mark, on top of what was read before. The
result comes with the position after it. -/
def readOnto (data : Array UInt8) (pos : Nat) (read : Int64) : Except WireError (Int64 × Nat) :=
  if h : pos < data.size then
    match extend? read data[pos] with
    -- found here and not at the end, so a number cut off may be out of range first
    | none => .error .integerOverflow
    | some read =>
      if data[pos] &&& endMark = 0 then readOnto data (pos + 1) read else .ok (read, pos + 1)
  else .error .unterminatedInteger
termination_by data.size - pos

def readAt (data : Array UInt8) (pos : Nat) : Except WireError (Int64 × Nat) :=
  match data[pos]? with
  | none => .error (.unexpectedEnd 1 0)
  | some byte => readOnto data pos (if byte &&& signBit = 0 then 0 else -1)

end SchemaCodec.Groups.Word
