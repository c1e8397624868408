import SchemaCodec.Graph
import SchemaCodec.Groups.Word
import SchemaCodec.Text
import SchemaCodec.Value
import SchemaCodec.Wire.Limits

/-!
# The fast serializer

Integers, lengths, counts and choice positions travel as signed 64-bit words. Writing pushes onto
one buffer; reading moves a cursor over an array that is never copied. What a word cannot hold is
refused as `integerOverflow`, and that is the only refusal the portable serializer does not share.
-/

namespace SchemaCodec.Wire.Fast

/-! ## Writing -/

/-- Appends an integer, if a word holds it. -/
def pushInteger (i : Int) (buffer : Array UInt8) : Except WireError (Array UInt8) :=
  match Groups.Word.ofInt? i with
  | some word => .ok (Groups.Word.write word buffer)
  | none => .error .integerOverflow

/-- Appends a length, a count or a position. -/
def pushCount (n : Nat) (buffer : Array UInt8) : Except WireError (Array UInt8) :=
  pushInteger n buffer

/-- Appends a payload after its length. -/
def pushBlob (payload : List UInt8) (buffer : Array UInt8) : Except WireError (Array UInt8) := do
  let buffer ← pushCount payload.length buffer
  .ok (buffer.appendList payload)

/-- Appends a value as a type. -/
def write (graph : Graph) :
    (levels : Nat) → Ty → Value → Array UInt8 → Except WireError (Array UInt8)
  | 0, _, _, _ => .error (.depthLimitExceeded maxDepth)
  | levels + 1, ty, value, buffer =>
    match graph.resolve ty, value with
    | .ref key, _ => .error (.unknownType key)
    | .none, .none => .ok buffer
    | .boolean, .boolean b => .ok (buffer.push (if b then 1 else 0))
    | .integer, .integer i => pushInteger i buffer
    | .float, .float x => .ok (buffer.appendList x.toBytes)
    | .string, .string s => pushBlob (Text.toBytes s) buffer
    | .bytes, .bytes bs => pushBlob bs buffer
    | .array element, .array items => do
      let buffer ← pushCount items.length buffer
      items.foldlM (fun buffer item ↦ write graph levels element item buffer) buffer
    | .record entries, .record fields =>
      entries.foldlM (fun buffer entry ↦
        match Members.get? entry.1 fields with
        | some field => write graph levels entry.2 field buffer
        | none => .error (.missingField entry.1)) buffer
    | .choice entries, .choice variant payload =>
      match Members.position? variant entries, Members.get? variant entries with
      | some index, some ty => do
        let buffer ← pushCount index buffer
        write graph levels ty payload buffer
      | _, _ => .error (.unknownVariant variant)
    | shape, value => .error (.typeMismatch shape.kind value.kind)

def encode (graph : Graph) (ty : Ty) (value : Value) : Except WireError (List UInt8) :=
  (write graph maxDepth ty value #[]).map Array.toList

/-! ## Reading -/

/-- Where a reader stands in the data, and the array elements it may still produce. -/
structure Cursor where
  pos : Nat
  budget : Nat

/-- Takes exactly `count` bytes. -/
def take (data : Array UInt8) (count : Nat) (cursor : Cursor) :
    Except WireError (List UInt8 × Cursor) :=
  if data.size - cursor.pos < count then
    .error (.unexpectedEnd count (data.size - cursor.pos))
  else
    let stop := cursor.pos + count
    .ok ((data.extract cursor.pos stop).toList, { cursor with pos := stop })

def readWord (data : Array UInt8) (cursor : Cursor) : Except WireError (Int64 × Cursor) := do
  let (word, pos) ← Groups.Word.readAt data cursor.pos
  .ok (word, { cursor with pos })

def readCount (data : Array UInt8) (cursor : Cursor) : Except WireError (Nat × Cursor) := do
  let (word, cursor) ← readWord data cursor
  if word < 0 then .error (.invalidLength word.toInt) else .ok (word.toInt.toNat, cursor)

/-- Reads a payload after its length. -/
def readBlob (data : Array UInt8) (cursor : Cursor) : Except WireError (List UInt8 × Cursor) := do
  let (count, cursor) ← readCount data cursor
  take data count cursor

/-- Reads `count` items behind those read before. -/
def readItems (read : Cursor → Except WireError (Value × Cursor)) :
    (count : Nat) → (items : Array Value) → Cursor → Except WireError (Array Value × Cursor)
  | 0, items, cursor => .ok (items, cursor)
  | count + 1, items, cursor =>
    match read cursor with
    | .error e => .error e
    | .ok (item, cursor) => readItems read count (items.push item) cursor

/-- Reads a value of a type at the cursor. -/
def read (graph : Graph) (data : Array UInt8) :
    (levels : Nat) → Ty → Cursor → Except WireError (Value × Cursor)
  | 0, _, _ => .error (.depthLimitExceeded maxDepth)
  | levels + 1, ty, cursor =>
    match graph.resolve ty with
    | .ref key => .error (.unknownType key)
    | .none => .ok (.none, cursor)
    | .boolean => do
      let (bytes, cursor) ← take data 1 cursor
      -- any byte but zero is true
      .ok (.boolean (bytes != [0]), cursor)
    | .integer => do
      let (word, cursor) ← readWord data cursor
      .ok (.integer word.toInt, cursor)
    | .float => do
      let (bytes, cursor) ← take data 8 cursor
      .ok (.float (Binary64.ofBytes bytes), cursor)
    | .string => do
      let (bytes, cursor) ← readBlob data cursor
      match Text.ofBytes? bytes with
      | some s => .ok (.string s, cursor)
      | none => .error .invalidUtf8
    | .bytes => do
      let (bytes, cursor) ← readBlob data cursor
      .ok (.bytes bytes, cursor)
    | .array element => do
      let (count, cursor) ← readCount data cursor
      -- claimed before the first item is read, and never given back
      let budget ← claim cursor.budget count
      let (items, cursor) ←
        readItems (read graph data levels element) count #[] { cursor with budget }
      .ok (.array items.toList, cursor)
    | .record entries => do
      let (fields, cursor) ← entries.foldlM (fun (state : Members String Value × Cursor) entry ↦ do
        let (field, cursor) ← read graph data levels entry.2 state.2
        .ok (Members.put entry.1 field state.1, cursor)) ([], cursor)
      .ok (.record fields, cursor)
    | .choice entries => do
      let (word, cursor) ← readWord data cursor
      let entry? := if word < 0 then none else entries[word.toInt.toNat]?
      match entry? with
      | none => .error (.invalidChoiceIndex word.toInt entries.length)
      | some (variant, ty) =>
        let (payload, cursor) ← read graph data levels ty cursor
        .ok (.choice variant payload, cursor)

/-- Reads one value from the front of the data, and returns it with the unread rest. -/
def decode (graph : Graph) (ty : Ty) (data : List UInt8) :
    Except WireError (Value × List UInt8) := do
  let (value, cursor) ← read graph data.toArray maxDepth ty ⟨0, elementBudget data.length⟩
  .ok (value, data.drop cursor.pos)

end SchemaCodec.Wire.Fast
