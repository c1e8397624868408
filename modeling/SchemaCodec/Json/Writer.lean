import SchemaCodec.Decimal.Shortest
import SchemaCodec.Hex
import SchemaCodec.Json.Basic

/-!
# JSON texts, written

One writer serves the compact and the indented layout: they differ only in what stands between
the parts. Text is appended to an output, so that a long list is one loop.
-/

namespace SchemaCodec.Json

/-- How the parts of arrays and objects are set. -/
inductive Layout where
  /-- Nothing between the parts. -/
  | compact
  /-- Each part on a line of its own, two spaces a level. -/
  | indented
deriving DecidableEq, Repr

namespace Layout

/-- What stands in front of a part at a level of nesting. -/
def lineBreak : Layout → (level : Nat) → String
  | compact, _ => ""
  | indented, level => "\n" ++ String.ofList (List.replicate (2 * level) ' ')

/-- What stands between a key and its content. -/
def colon : Layout → String
  | compact => ":"
  | indented => ": "

end Layout

/-- Appends a character of a string: quotes, backslashes and control characters are escaped. -/
def appendChar (out : String) (c : Char) : String :=
  if c = '"' then out ++ "\\\""
  else if c = '\\' then out ++ "\\\\"
  else if c = '\n' then out ++ "\\n"
  else if c = '\r' then out ++ "\\r"
  else if c = '\t' then out ++ "\\t"
  else if c = '\x08' then out ++ "\\b"
  else if c = '\x0c' then out ++ "\\f"
  else if c.toNat < 0x20 then
    ((out ++ "\\u00").push (Hex.digit (c.toNat / 16))).push (Hex.digit (c.toNat % 16))
  else out.push c

def appendString (out s : String) : String := (s.toList.foldl appendChar (out.push '"')).push '"'

def numberText : JsonNumber → String
  | .integer i => Decimal.intText i
  | .float x => Decimal.floatText x

mutual

/-- Appends the text of a value that stands at a level of nesting. -/
def append (layout : Layout) (level : Nat) : Json → String → String
  | null, out => out ++ "null"
  | bool b, out => out ++ (if b then "true" else "false")
  | number n, out => out ++ numberText n
  | string s, out => appendString out s
  | array [], out => out ++ "[]"
  | array (item :: rest), out =>
    appendItems layout level rest
      (append layout (level + 1) item (out ++ "[" ++ layout.lineBreak (level + 1)))
  | object [], out => out ++ "\x7b\x7d"
  | object ((key, json) :: rest), out =>
    appendMembers layout level rest
      (append layout (level + 1) json
        (appendString (out ++ "\x7b" ++ layout.lineBreak (level + 1)) key ++ layout.colon))

/-- Appends the items after the first one and closes the array. -/
def appendItems (layout : Layout) (level : Nat) : List Json → String → String
  | [], out => out ++ layout.lineBreak level ++ "]"
  | item :: rest, out =>
    appendItems layout level rest
      (append layout (level + 1) item (out ++ "," ++ layout.lineBreak (level + 1)))

/-- Appends the members after the first one and closes the object. -/
def appendMembers (layout : Layout) (level : Nat) : List (String × Json) → String → String
  | [], out => out ++ layout.lineBreak level ++ "\x7d"
  | (key, json) :: rest, out =>
    appendMembers layout level rest
      (append layout (level + 1) json
        (appendString (out ++ "," ++ layout.lineBreak (level + 1)) key ++ layout.colon))

end

/-- The text of a value in a layout. -/
def render (layout : Layout) (json : Json) : String := append layout 0 json ""

/-- The text of a value on one line without blanks. -/
def text (json : Json) : String := json.render .compact

end SchemaCodec.Json
