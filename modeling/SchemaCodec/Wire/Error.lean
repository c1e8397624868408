import SchemaCodec.Key
import SchemaCodec.Kind

/-!
# Failures of the wire format

Why a value cannot be written or bytes cannot be read. A failure ends the whole call: there is no
partial output. The wording lives in `WireError.message` and nowhere else.
-/

namespace SchemaCodec

/-- Why encoding or decoding stopped. -/
inductive WireError where
  /-- Fewer bytes are left than the next item needs. -/
  | unexpectedEnd (needed available : Nat)
  /-- The bytes end before the last group of an integer. -/
  | unterminatedInteger
  /-- An integer lies outside the signed 64-bit range. -/
  | integerOverflow
  /-- A length or count is negative or beyond the address range. -/
  | invalidLength (length : Int)
  | invalidChoiceIndex (index : Int) (count : Nat)
  | invalidUtf8
  | missingField (name : String)
  | unknownVariant (name : String)
  | typeMismatch (expected found : Kind)
  /-- A chain of references ends on a key without an entry, or never ends. -/
  | unknownType (key : Key)
  /-- An array announces more elements than the input may still produce. -/
  | elementLimitExceeded (count available : Nat)
  | depthLimitExceeded (limit : Nat)
deriving DecidableEq, Repr

namespace WireError

def message : WireError → String
  | unexpectedEnd needed available =>
    s!"unexpected end of input: need {needed} bytes, have {available}"
  | unterminatedInteger => "integer has no terminal byte before end of input"
  | integerOverflow => "integer does not fit in 64 bits"
  | invalidLength length => s!"invalid length prefix {length}"
  | invalidChoiceIndex index count => s!"choice index {index} out of range for {count} variants"
  | invalidUtf8 => "string is not valid UTF-8"
  | missingField name => "record value is missing field `" ++ name ++ "`"
  | unknownVariant name => "choice has no variant named `" ++ name ++ "`"
  | typeMismatch expected found => "expected " ++ expected.name ++ " value, found " ++ found.name
  | unknownType key => "type `" ++ key.text ++ "` is not in the type graph"
  | elementLimitExceeded count available =>
    s!"array of {count} elements exceeds the remaining decode budget of {available}"
  | depthLimitExceeded limit => s!"value nesting exceeds {limit} levels"

end WireError

end SchemaCodec
