import SchemaCodec.Diagnostic.Canvas
import SchemaCodec.Text.Width

/-!
# Long lines

A line that is wider than the page is shown through a window, the same for all lines of a
diagnostic. It is placed by what matters most: first everything but blanks in front, then the marks
with their labels, then the marks alone. Where the window cuts a line, dots take the place of the
characters next to the cut.
-/

namespace SchemaCodec.Snippet

/-- What the place of the window depends on, in columns: the least indentation of a line, the first
and the last column that is marked, the last column with its label beside it, and the width of the
widest line. -/
structure Extent where
  indentation : Nat
  first : Nat
  last : Nat
  labelled : Nat
  widest : Nat

/-- The columns from `left` on up to `right`. -/
structure Window where
  left : Nat
  right : Nat
  width : Nat

namespace Window

/-- Columns kept free beside what has to be seen. -/
def margin : Nat := 6

/-- The greatest indentation that is left in place, and how much is left of a greater one. -/
def keptBlanks : Nat × Nat := (20, 4)

/-- The window of a width that begins at a column. -/
def ofLeft (width left : Nat) : Window := ⟨left, left + width, width⟩

/-- The window on lines of a given extent. Blanks in front may be given up as far as the first
mark. -/
def place (width : Nat) (extent : Extent) : Window :=
  let blank := min extent.indentation extent.first - margin
  let first := extent.first - margin
  let last := extent.last + margin
  let labelled := extent.labelled + margin
  let left := if keptBlanks.1 < blank then blank - (keptBlanks.1 - keptBlanks.2) else 0
  let right := max extent.widest left
  if right - left ≤ width then ⟨left, right, width⟩
  else if labelled - blank ≤ width then ofLeft width blank
  else if labelled - first ≤ width then ofLeft width (first - (width - (labelled - first)) / 2)
  else if last - first ≤ width then ofLeft width (first - (width - (last - first)) / 5 * 2)
  else ⟨first, last, width⟩

/-- Where the window begins on a line of a width. -/
def leftOf (window : Window) (lineWidth : Nat) : Nat := min window.left lineWidth

/-- Where the window ends on a line of a width. What is left of a line is shown to its end if it
fits the page. -/
def rightOf (window : Window) (lineWidth : Nat) : Nat :=
  if lineWidth - window.left ≤ window.width then lineWidth else min lineWidth window.right

end Window

/-! ## Cutting -/

/-- Drops characters until `room` columns are gone; the columns dropped are one more than that if a
wide character lies across the cut. -/
def dropColumns (room dropped : Nat) : List Char → Nat × List Char
  | [] => (dropped, [])
  | c :: rest =>
    if dropped < room then dropColumns room (dropped + Text.columns c) rest
    else (dropped, c :: rest)

/-- The characters that fit into `room` columns. -/
def takeColumns (room taken : Nat) : List Char → List Char
  | [] => []
  | c :: rest =>
    let taken := taken + Text.columns c
    if taken ≤ room then c :: takeColumns room taken rest else []

/-- How many characters are needed to fill `room` columns, and how many columns they fill. -/
def fill (room : Nat) : (chars columns : Nat) → List Char → Nat × Nat
  | chars, columns, [] => (chars, columns)
  | chars, columns, c :: rest =>
    let columns := columns + Text.columns c
    if room ≤ columns then (chars + 1, columns) else fill room (chars + 1) columns rest

/-- What stands for characters that are cut off. -/
def dots : List Char := ['.', '.', '.']

/-- Draws the part of a line that the window shows from a column on, and gives the columns of the
line that are hidden on the left. -/
def drawThrough (window : Window) (column : Nat) (row : Row) (cs : List Char) : Row × Nat :=
  let lineWidth := Text.columnsOf cs
  let left := window.leftOf lineWidth
  let right := window.rightOf lineWidth
  let (dropped, rest) := dropColumns left 0 cs
  let code := takeColumns (right - left) 0 rest
  let (before, columns) := if 0 < window.left then fill dots.length 0 0 code else (0, 0)
  let (after, _) := fill dots.length 0 0 code.reverse
  let row := if 0 < window.left then row.draw column dots .ruler else row
  let row := row.draw (column + columns) (code.drop before) .plain
  let row :=
    if right < lineWidth then
      row.draw (column + columns + (code.length - before) - after) dots .ruler
    else row
  (row, max left dropped)

end SchemaCodec.Snippet
