import SchemaCodec.Binary64
import SchemaCodec.Kind
import SchemaCodec.Members

/-!
# Values

A dynamically typed value tree: what is encoded, and what decoding gives back. It holds no
reference to a type. Integers are unbounded, and a record keeps its fields in the order in which
they were written.

Sameness of values is numerical on floats and ignores the order of record fields, so it is a
function of its own and not the equality of the type.
-/

namespace SchemaCodec

/-- A value of some schema type. -/
inductive Value where
  | none
  | boolean (b : Bool)
  | integer (i : Int)
  | float (x : Binary64)
  | string (s : String)
  | bytes (bs : List UInt8)
  | array (items : List Value)
  | record (fields : List (String × Value))
  | choice (variant : String) (payload : Value)
deriving Inhabited

namespace Value

def kind : Value → Kind
  | none => .none
  | boolean _ => .boolean
  | integer _ => .integer
  | float _ => .float
  | string _ => .string
  | bytes _ => .bytes
  | array _ => .array
  | record _ => .record
  | choice .. => .choice

mutual

/-- Sameness of values: floats by number, records by field and not by order. -/
def same : Value → Value → Bool
  | none, none => true
  | boolean a, boolean b => a == b
  | integer a, integer b => a == b
  | float a, float b => a.sameNumber b
  | string a, string b => a == b
  | bytes a, bytes b => a == b
  | array as, array bs => sameItems as bs
  | record as, record bs => as.length == bs.length && sameFields as bs
  | choice v a, choice w b => v == w && same a b
  | _, _ => false

/-- Pairwise sameness of two lists of one length. -/
def sameItems : List Value → List Value → Bool
  | [], [] => true
  | a :: as, b :: bs => same a b && sameItems as bs
  | _, _ => false

/-- Every field on the left has a field of the same name and value on the right. -/
def sameFields : List (String × Value) → List (String × Value) → Bool
  | [], _ => true
  | (name, a) :: rest, bs =>
    (match Members.get? name bs with
      | some b => same a b
      | Option.none => false) && sameFields rest bs

end

end Value

end SchemaCodec
