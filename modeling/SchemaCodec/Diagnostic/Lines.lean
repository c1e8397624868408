import SchemaCodec.Span
import SchemaCodec.Text
import SchemaCodec.Text.Width

/-!
# Lines of a text and places on them

A text is cut into lines at its line feeds. A carriage return before a line feed belongs to the
break, and a text that ends with a break has no further line after it, so that every line but that
of an empty text has at least one byte. An offset is on the line whose bytes, those of the break
included, it is among; every offset from the end of the text on is on the last line.
-/

namespace SchemaCodec.Snippet

/-! ## Lines -/

/-- A line of a text: its number, its characters without the line break, the offset of its first
byte, the offset of its break and the offset after its break. -/
structure Line where
  number : Nat
  chars : List Char
  start : Nat
  textStop : Nat
  stop : Nat

/-- The lines of a text from a line on, whose characters read so far are in reverse. -/
def linesFrom (number start offset : Nat) (read : List Char) : List Char → List Line
  | [] => if read.isEmpty then [] else [⟨number, read.reverse, start, offset, offset⟩]
  | '\n' :: rest =>
    let line : Line := match read with
      | '\r' :: read => ⟨number, read.reverse, start, offset - 1, offset + 1⟩
      | read => ⟨number, read.reverse, start, offset, offset + 1⟩
    line :: linesFrom (number + 1) (offset + 1) (offset + 1) [] rest
  | c :: rest => linesFrom number start (offset + c.utf8Size) (c :: read) rest

/-- The lines of a text; an empty text has one. -/
def lines (source : String) : List Line :=
  match linesFrom 1 0 0 [] source.toList with
  | [] => [⟨1, [], 0, 0, 0⟩]
  | lines => lines

def lineAt (offset : Nat) : List Line → Line
  | [] => ⟨1, [], 0, 0, 0⟩
  | [line] => line
  | line :: rest => if offset < line.stop then line else lineAt offset rest

def line? (lines : List Line) (number : Nat) : Option Line :=
  lines.find? fun line ↦ line.number = number

/-- The number of the last line that begins before an offset. -/
def lastNumber (lines : List Line) (offset : Nat) : Nat :=
  max 1 (lines.filter fun line ↦ line.start < offset).length

/-! ## Places -/

/-- A place in a text: an offset, the number of its line, and the characters and the columns before
it on that line. -/
structure Place where
  offset : Nat
  line : Nat
  char : Nat
  column : Nat
deriving DecidableEq

/-- The characters before a byte of a line. -/
def charsBefore (bytes : Nat) : List Char → List Char
  | [] => []
  | c :: rest => if c.utf8Size ≤ bytes then c :: charsBefore (bytes - c.utf8Size) rest else []

/-- The place of an offset on a line. Within the break it is that of the break. -/
def Line.place (line : Line) (offset : Nat) : Place :=
  let before := charsBefore (offset - line.start) line.chars
  ⟨offset, line.number, before.length, Text.columnsOf before⟩

/-- The place where a range begins. Past the text of the line, the break counts as a character. -/
def beginning (lines : List Line) (range : Span) : Place :=
  let line := lineAt range.start lines
  let place := line.place range.start
  if line.textStop < range.start then { place with char := place.char + 1 } else place

/-- The place where a range that begins on a line ends. If that is on another line and past the
text there, the break counts as a character of one column. -/
def ending (lines : List Line) (range : Span) (first : Place) : Place :=
  let line := lineAt range.stop lines
  let place := line.place range.stop
  if first.line ≠ line.number ∧ line.textStop < range.stop then
    { place with char := place.char + 1, column := place.column + 1 }
  else place

/-- The places of a range. One that takes no column on its line is given one. -/
def places (lines : List Line) (range : Span) : Place × Place :=
  let first := beginning lines range
  let last := if range.start = range.stop then first else ending lines range first
  (first, if first.line = last.line ∧ first.column = last.column then
    { last with column := last.column + 1 } else last)

end SchemaCodec.Snippet
