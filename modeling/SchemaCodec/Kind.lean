/-!
# Kinds

The outermost constructor of a value or of a type, without its parts. Error messages speak of
kinds only, so one enumeration serves values, types and JSON mismatches. `ref` is a kind of types
alone: no value is a reference.
-/

namespace SchemaCodec

/-- The outermost constructor of a value or of a type. -/
inductive Kind where
  | none | boolean | integer | float | string | bytes | array | record | choice | ref
deriving DecidableEq, Repr

namespace Kind

/-- The name a kind carries in the schema language and in messages. -/
def name : Kind → String
  | none => "None"
  | boolean => "Boolean"
  | integer => "Integer"
  | float => "Float"
  | string => "String"
  | bytes => "Bytes"
  | array => "Array"
  | record => "Record"
  | choice => "Choice"
  | ref => "Ref"

end Kind

end SchemaCodec
