/-!
# Settings of the command line

Each verb of the command line has its own settings. A setting is named by a letter after one dash,
by a word after two, or both; most take a value. The tables below are all that the reader of
arguments knows about them.
-/

namespace SchemaCodec.Command

/-- What the program is asked to do. -/
inductive Verb where
  | check
  | encode
  | decode
  /-- Print the schema in portable form. -/
  | portable
deriving DecidableEq, Repr

/-- A setting that arguments can make. -/
inductive Setting where
  /-- The text of a schema. -/
  | schema
  | serializer
  | color
  | verbose
  /-- The type of the value. -/
  | type
  /-- The value, as JSON. -/
  | json
  /-- The file that holds the value. -/
  | input
  /-- The value, as hexadecimal bytes. -/
  | hexInput
  /-- Print bytes in hexadecimal. -/
  | hex
  /-- Print JSON with a line for each part. -/
  | pretty
deriving DecidableEq, Repr

namespace Verb

def name : Verb → String
  | check => "check"
  | encode => "encode"
  | decode => "decode"
  | portable => "export"

def ofName? (word : String) : Option Verb :=
  [check, encode, decode, portable].find? (·.name = word)

/-- The settings that a verb has apart from those of all verbs. -/
def ownSettings : Verb → List Setting
  | check => []
  | encode => [.type, .json, .input, .hex]
  | decode => [.type, .input, .hexInput, .pretty]
  | portable => [.pretty]

def settings (verb : Verb) : List Setting :=
  verb.ownSettings ++ [.schema, .serializer, .color, .verbose]

end Verb

namespace Setting

def letter? : Setting → Option Char
  | schema => some 's'
  | verbose => some 'v'
  | type => some 't'
  | json => some 'j'
  | input => some 'i'
  | hexInput => some 'x'
  | _ => none

def word? : Setting → Option String
  | schema => some "schema"
  | serializer => some "serializer"
  | color => some "color"
  | verbose => none
  | type => some "type"
  | json => some "json"
  | input => some "input"
  | hexInput => some "hex-input"
  | hex => some "hex"
  | pretty => some "pretty"

def takesValue : Setting → Bool
  | verbose | hex | pretty => false
  | _ => true

end Setting

end SchemaCodec.Command
