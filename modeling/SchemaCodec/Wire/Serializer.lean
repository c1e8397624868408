import SchemaCodec.Wire.Fast
import SchemaCodec.Wire.Portable

/-!
# Choosing a serializer

The two serializers share one wire format. A serializer is named by a value of this type, and
everything above the wire format is written against the choice and not against either of them.
-/

namespace SchemaCodec.Wire

/-- An implementation of the wire format. -/
inductive Serializer where
  | portable
  | fast
deriving DecidableEq, Repr

namespace Serializer

/-- The serializer used unless another is named. -/
def standard : Serializer := fast

def name : Serializer → String
  | portable => "portable"
  | fast => "fast"

def ofName? (text : String) : Option Serializer := [portable, fast].find? (·.name = text)

def encode : Serializer → Graph → Ty → Value → Except WireError (List UInt8)
  | portable => Portable.encode
  | fast => Fast.encode

/-- One value from the front of the data, and the unread rest. -/
def decode : Serializer → Graph → Ty → List UInt8 → Except WireError (Value × List UInt8)
  | portable => Portable.decode
  | fast => Fast.decode

end Serializer

end SchemaCodec.Wire
