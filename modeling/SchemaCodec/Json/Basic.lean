import SchemaCodec.Binary64
import SchemaCodec.Members

/-!
# JSON values

A JSON text denotes a tree of this type. A number is an integer only when it was written without
fraction and exponent and fits a 64-bit word, signed or unsigned; every other number is a float.
Objects keep the order of their members. What a reader of typed data makes of a repeated key is not
the tree's business: the raw tree keeps every member, and `Json.normal` is the reading under which
the last one wins.
-/

namespace SchemaCodec

/-- A JSON number. -/
inductive JsonNumber where
  | integer (i : Int)
  | float (x : Binary64)
deriving DecidableEq, Repr

inductive Json where
  | null
  | bool (b : Bool)
  | number (n : JsonNumber)
  | string (s : String)
  | array (items : List Json)
  | object (members : List (String × Json))
deriving Inhabited

namespace Json

/-- The outermost constructor of a JSON value. -/
inductive Form where
  | null | boolean | number | string | array | object
deriving DecidableEq, Repr

def Form.name : Form → String
  | null => "null"
  | boolean => "boolean"
  | number => "number"
  | string => "string"
  | array => "array"
  | object => "object"

def form : Json → Form
  | null => .null
  | bool _ => .boolean
  | number _ => .number
  | string _ => .string
  | array _ => .array
  | object _ => .object

def ofInt (i : Int) : Json := number (.integer i)

mutual

/-- Resolves repeated keys: a key keeps its first place and takes its last content. -/
def normal : Json → Json
  | array items => array (normalItems items)
  | object members => object (normalMembers members [])
  | json => json

def normalItems : List Json → List Json
  | [] => []
  | item :: rest => item.normal :: normalItems rest

/-- Writes the members one by one onto those read before. -/
def normalMembers : List (String × Json) → Members String Json → Members String Json
  | [], read => read
  | (key, json) :: rest, read => normalMembers rest (Members.put key json.normal read)

end

end Json

end SchemaCodec
