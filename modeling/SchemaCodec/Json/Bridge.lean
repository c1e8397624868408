import SchemaCodec.Decimal.Integer
import SchemaCodec.Decimal.Rounding
import SchemaCodec.Graph
import SchemaCodec.Json.Writer
import SchemaCodec.Value
import SchemaCodec.Wire.Error

/-!
# Values as JSON

Under a type, a value and a JSON value determine each other: bytes are arrays of small numbers, a
choice is a pair of variant and payload, and an integer that no 64-bit word holds is a decimal text.
Both directions recurse on the tree they read, so neither needs a bound on its depth.
-/

namespace SchemaCodec

/-- Why a value has no JSON form, or a JSON value is no value of a type. -/
inductive BridgeError where
  /-- A failure that the wire format knows too. -/
  | wire (e : WireError)
  /-- JSON has no infinities and no NaN. -/
  | notFinite (x : Binary64)
  | notDecimal (s : String)
  | notInteger (n : JsonNumber)
  | notByte (item : Json)
  /-- A choice is an array of a string and a payload. -/
  | notPair
  | unexpectedForm (expected : Kind) (found : Json.Form)

namespace BridgeError

/-- What is wrong, for the failures of the bridge's own. -/
def detail : BridgeError → String
  | wire e => e.message
  | notFinite x => "float " ++ Decimal.floatText x ++ " has no JSON representation"
  | notDecimal s => "`" ++ s ++ "` is not a decimal integer"
  | notInteger n => Json.numberText n ++ " is not an integer"
  | notByte item => item.text ++ " is not a byte"
  | notPair => "choice must be a `[variant, value]` pair"
  | unexpectedForm expected found => "expected " ++ expected.name ++ " value, found " ++ found.name

def message : BridgeError → String
  | wire e => e.message
  | e => "invalid JSON value: " ++ e.detail

end BridgeError

namespace Json

/-! ## Writing -/

/-- An integer is a number if a 64-bit word holds it, signed or unsigned, and a text otherwise. -/
def ofInteger (i : Int) : Json :=
  if -(Nat.pow 2 63 : Int) ≤ i ∧ i < (Nat.pow 2 64 : Int) then ofInt i
  else string (Decimal.intText i)

def ofByte (byte : UInt8) : Json := ofInt byte.toNat

mutual

/-- The JSON form of a value of a type whose references have been chased. -/
def ofShaped (graph : Graph) : (shape : Ty) → Value → Except BridgeError Json
  | .ref key, _ => .error (.wire (.unknownType key))
  | .none, .none => .ok null
  | .boolean, .boolean b => .ok (bool b)
  | .integer, .integer i => .ok (ofInteger i)
  | .float, .float x => if x.isFinite then .ok (number (.float x)) else .error (.notFinite x)
  | .string, .string s => .ok (string s)
  | .bytes, .bytes bs => .ok (array (bs.map ofByte))
  | .array element, .array items => (ofItems graph element items []).map array
  | .record entries, .record fields => do
    let members ← entries.foldlM (fun (members : Members String Json) entry ↦ do
      let json ← ofField graph entry.1 entry.2 fields
      .ok (Members.put entry.1 json members)) []
    .ok (object members)
  | .choice entries, .choice variant payload =>
    match Members.get? variant entries with
    | none => .error (.wire (.unknownVariant variant))
    | some ty => do
      let json ← ofShaped graph (graph.resolve ty) payload
      .ok (array [string variant, json])
  | shape, value => .error (.wire (.typeMismatch shape.kind value.kind))

/-- The JSON forms of the items; `written` holds those before them, the latest first. -/
def ofItems (graph : Graph) (element : Ty) :
    List Value → (written : List Json) → Except BridgeError (List Json)
  | [], written => .ok written.reverse
  | item :: rest, written => do
    let json ← ofShaped graph (graph.resolve element) item
    ofItems graph element rest (json :: written)

/-- The JSON form of the first field of a name. -/
def ofField (graph : Graph) (name : String) (ty : Ty) :
    List (String × Value) → Except BridgeError Json
  | [] => .error (.wire (.missingField name))
  | (key, value) :: rest =>
    if key = name then ofShaped graph (graph.resolve ty) value else ofField graph name ty rest

end

def ofValue (graph : Graph) (ty : Ty) (value : Value) : Except BridgeError Json :=
  ofShaped graph (graph.resolve ty) value

/-! ## Reading -/

def toByte : Json → Except BridgeError UInt8
  | number (.integer i) =>
    if 0 ≤ i ∧ i < 256 then .ok (UInt8.ofNat i.toNat) else .error (.notByte (ofInt i))
  | json => .error (.notByte json)

def toFloat : JsonNumber → Binary64
  | .integer i => Decimal.ofInt i
  | .float x => x

mutual

/-- The value of a type whose references have been chased. -/
def toShaped (graph : Graph) : (shape : Ty) → Json → Except BridgeError Value
  | .ref key, _ => .error (.wire (.unknownType key))
  | .none, null => .ok .none
  | .boolean, bool b => .ok (.boolean b)
  | .integer, number (.integer i) => .ok (.integer i)
  | .integer, number n => .error (.notInteger n)
  | .integer, string s =>
    match Decimal.readInt? s with
    | some i => .ok (.integer i)
    | none => .error (.notDecimal s)
  | .float, number n => .ok (.float (toFloat n))
  | .string, string s => .ok (.string s)
  | .bytes, array items => (items.mapM toByte).map .bytes
  | .array element, array items => (toItems graph element items []).map .array
  | .record entries, object members => do
    let fields ← entries.foldlM (fun (fields : Members String Value) entry ↦ do
      let value ← toField graph entry.1 entry.2 members
      .ok (Members.put entry.1 value fields)) []
    .ok (.record fields)
  | .choice entries, array [string variant, payload] =>
    match Members.get? variant entries with
    | none => .error (.wire (.unknownVariant variant))
    | some ty => (toShaped graph (graph.resolve ty) payload).map (.choice variant)
  | .choice _, array _ => .error .notPair
  | shape, json => .error (.unexpectedForm shape.kind json.form)

/-- The values of the items; `read` holds those before them, the latest first. -/
def toItems (graph : Graph) (element : Ty) :
    List Json → (read : List Value) → Except BridgeError (List Value)
  | [], read => .ok read.reverse
  | item :: rest, read => do
    let value ← toShaped graph (graph.resolve element) item
    toItems graph element rest (value :: read)

/-- The value of the first member of a name. -/
def toField (graph : Graph) (name : String) (ty : Ty) :
    List (String × Json) → Except BridgeError Value
  | [] => .error (.wire (.missingField name))
  | (key, json) :: rest =>
    if key = name then toShaped graph (graph.resolve ty) json else toField graph name ty rest

end

def toValue (graph : Graph) (ty : Ty) (json : Json) : Except BridgeError Value :=
  toShaped graph (graph.resolve ty) json

end Json

end SchemaCodec
