/-!
# Text as bytes

Strings are stored as UTF-8 on the wire and in files. These two functions are the only bridge
between characters and bytes.
-/

namespace SchemaCodec.Text

def toBytes (s : String) : List UInt8 := s.toByteArray.data.toList

/-- The text that the bytes are the UTF-8 form of, if they are that of any. -/
def ofBytes? (bytes : List UInt8) : Option String := String.fromUTF8? ⟨bytes.toArray⟩

/-- The number of UTF-8 bytes of a list of characters. -/
def width (cs : List Char) : Nat := cs.foldr (fun c width ↦ c.utf8Size + width) 0

end SchemaCodec.Text
