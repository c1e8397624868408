import SchemaCodec.Graph
import SchemaCodec.Groups.Big
import SchemaCodec.Text
import SchemaCodec.Value
import SchemaCodec.Wire.Limits

/-!
# The portable serializer

Integers are unbounded from end to end, so every value the schema admits can be written. Reading
consumes a list of bytes from the front; writing collects bytes with the latest one first.

Both directions recurse on the number of levels that a value may still nest, which makes the depth
limit the measure of termination and its violation the base case.
-/

namespace SchemaCodec.Wire.Portable

/-! ## Writing -/

/-- Adds bytes to an output whose latest byte comes first. -/
def emit (bytes out : List UInt8) : List UInt8 := bytes.reverseAux out

/-- Adds a payload after its length. -/
def emitBlob (payload out : List UInt8) : List UInt8 :=
  emit payload (emit (Groups.write payload.length) out)

/-- Writes a value as a type, in front of an output whose latest byte comes first. -/
def write (graph : Graph) :
    (levels : Nat) → Ty → Value → List UInt8 → Except WireError (List UInt8)
  | 0, _, _, _ => .error (.depthLimitExceeded maxDepth)
  | levels + 1, ty, value, out =>
    match graph.resolve ty, value with
    | .ref key, _ => .error (.unknownType key)
    | .none, .none => .ok out
    | .boolean, .boolean b => .ok (emit [if b then 1 else 0] out)
    | .integer, .integer i => .ok (emit (Groups.write i) out)
    | .float, .float x => .ok (emit x.toBytes out)
    | .string, .string s => .ok (emitBlob (Text.toBytes s) out)
    | .bytes, .bytes bs => .ok (emitBlob bs out)
    | .array element, .array items =>
      items.foldlM (fun out item ↦ write graph levels element item out)
        (emit (Groups.write items.length) out)
    | .record entries, .record fields =>
      entries.foldlM (fun out entry ↦
        match Members.get? entry.1 fields with
        | none => .error (.missingField entry.1)
        | some field => write graph levels entry.2 field out) out
    | .choice entries, .choice variant payload =>
      match Members.position? variant entries, Members.get? variant entries with
      | some index, some ty => write graph levels ty payload (emit (Groups.write index) out)
      | _, _ => .error (.unknownVariant variant)
    | shape, value => .error (.typeMismatch shape.kind value.kind)

def encode (graph : Graph) (ty : Ty) (value : Value) : Except WireError (List UInt8) :=
  (write graph maxDepth ty value []).map List.reverse

/-! ## Reading -/

/-- What is left of an input: its bytes, and the array elements it may still produce. -/
structure Source where
  bytes : List UInt8
  budget : Nat

/-- Splits off the first `count` bytes, if there are so many. -/
def splitOff (count : Nat) (bytes : List UInt8) : Option (List UInt8 × List UInt8) :=
  go count bytes []
where
  /-- Moves bytes to the front of `taken`, which is in reverse. -/
  go : Nat → List UInt8 → List UInt8 → Option (List UInt8 × List UInt8)
    | 0, rest, taken => some (taken.reverse, rest)
    | _ + 1, [], _ => none
    | count + 1, byte :: rest, taken => go count rest (byte :: taken)

/-- Takes exactly `count` bytes. -/
def take (count : Nat) (source : Source) : Except WireError (List UInt8 × Source) :=
  match splitOff count source.bytes with
  | some (taken, rest) => .ok (taken, { source with bytes := rest })
  | none => .error (.unexpectedEnd count source.bytes.length)

def readInteger (source : Source) : Except WireError (Int × Source) := do
  let (n, rest) ← Groups.read source.bytes
  .ok (n, { source with bytes := rest })

def readLength (source : Source) : Except WireError (Nat × Source) := do
  let (n, source) ← readInteger source
  let length ← lengthOf n
  .ok (length, source)

/-- Reads a payload after its length. -/
def readBlob (source : Source) : Except WireError (List UInt8 × Source) := do
  let (length, source) ← readLength source
  take length source

/-- Reads `count` items; those read before are in `items`, the latest first. -/
def readItems (read : Source → Except WireError (Value × Source)) :
    (count : Nat) → (items : List Value) → Source → Except WireError (List Value × Source)
  | 0, items, source => .ok (items.reverse, source)
  | count + 1, items, source => do
    let (item, source) ← read source
    readItems read count (item :: items) source

/-- Reads one field per entry. A repeated name keeps its first place and its last value. -/
def readFields (read : Ty → Source → Except WireError (Value × Source)) :
    List (String × Ty) → (fields : Members String Value) → Source →
    Except WireError (Members String Value × Source)
  | [], fields, source => .ok (fields, source)
  | (name, ty) :: entries, fields, source => do
    let (field, source) ← read ty source
    readFields read entries (Members.put name field fields) source

/-- The entry at a position, which may be any integer. -/
def entryAt? (entries : List (String × Ty)) (index : Int) : Option (String × Ty) :=
  if 0 ≤ index then entries[index.toNat]? else none

/-- Reads a value of a type from the front of the source. -/
def read (graph : Graph) : (levels : Nat) → Ty → Source → Except WireError (Value × Source)
  | 0, _, _ => .error (.depthLimitExceeded maxDepth)
  | levels + 1, ty, source =>
    match graph.resolve ty with
    | .ref key => .error (.unknownType key)
    | .none => .ok (.none, source)
    | .boolean => do
      let (bytes, source) ← take 1 source
      -- any byte but zero is true
      .ok (.boolean (bytes != [0]), source)
    | .integer => do
      let (n, source) ← readInteger source
      .ok (.integer n, source)
    | .float => do
      let (bytes, source) ← take 8 source
      .ok (.float (Binary64.ofBytes bytes), source)
    | .string => do
      let (bytes, source) ← readBlob source
      match Text.ofBytes? bytes with
      | some s => .ok (.string s, source)
      | none => .error .invalidUtf8
    | .bytes => do
      let (bytes, source) ← readBlob source
      .ok (.bytes bytes, source)
    | .array element => do
      let (count, source) ← readLength source
      -- claimed before the first item is read, and never given back
      let budget ← claim source.budget count
      let (items, source) ← readItems (read graph levels element) count [] { source with budget }
      .ok (.array items, source)
    | .record entries => do
      let (fields, source) ← readFields (read graph levels) entries [] source
      .ok (.record fields, source)
    | .choice entries => do
      let (index, source) ← readInteger source
      match entryAt? entries index with
      | none => .error (.invalidChoiceIndex index entries.length)
      | some (variant, ty) =>
        let (payload, source) ← read graph levels ty source
        .ok (.choice variant payload, source)

/-- Reads one value from the front of the data, and returns it with the unread rest. -/
def decode (graph : Graph) (ty : Ty) (data : List UInt8) :
    Except WireError (Value × List UInt8) := do
  let (value, source) ← read graph maxDepth ty ⟨data, elementBudget data.length⟩
  .ok (value, source.bytes)

end SchemaCodec.Wire.Portable
