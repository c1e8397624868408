/-!
# Styled lines

A rendering is drawn on rows of cells. Drawing may overwrite what was drawn before, and a row grows
with blanks up to the place that is drawn at. Styles show only when a canvas is turned into text in
color.
-/

namespace SchemaCodec

/-- How a cell looks in color. -/
inductive Style where
  | plain
  /-- The text of the title. -/
  | title
  /-- What is marked as an error. -/
  | error
  /-- Line numbers, rulers and secondary marks. -/
  | ruler
deriving DecidableEq, Repr

/-- The control sequence that begins a style. -/
def Style.start : Style → String
  | plain => ""
  | title => "\x1b[1m"
  | error => "\x1b[1m\x1b[91m"
  | ruler => "\x1b[1m\x1b[94m"

/-- The control sequence that ends a style. -/
def Style.stop : Style → String
  | plain => ""
  | _ => "\x1b[0m"

/-- A row of cells. -/
abbrev Row := List (Char × Style)

namespace Row

/-- Draws text from a column on. Drawing nothing leaves a row as it is. -/
def draw (row : Row) (column : Nat) (text : List Char) (style : Style) : Row :=
  if text.isEmpty then row
  else
    row.take column ++ List.replicate (column - row.length) (' ', .plain) ++
      text.map (fun c ↦ (c, style)) ++ row.drop (column + text.length)

/-- Draws text after the last cell. -/
def append (row : Row) (text : List Char) (style : Style) : Row :=
  row ++ text.map fun c ↦ (c, style)

/-- Draws a character on the columns from `first` up to `last`. -/
def drawRange (row : Row) (first last : Nat) (c : Char) (style : Style) : Row :=
  row.draw first (List.replicate (last - first) c) style

/-- Puts text in place of the cells from `first` up to `last`, if the row has them. -/
def splice (row : Row) (first last : Nat) (text : List Char) (style : Style) : Row :=
  if first = last ∨ row.length < first ∨ row.length < last then row
  else row.take first ++ text.map (fun c ↦ (c, style)) ++ row.drop last

def plainText (row : Row) : String := String.ofList (row.map Prod.fst)

/-- Appends cells after one of the style `before`, changing style where they do. -/
def appendStyled (before : Style) (out : String) : Row → String
  | [] => out ++ before.stop
  | (c, style) :: rest =>
    let out := if style = before then out else out ++ before.stop ++ style.start
    appendStyled style (out.push c) rest

def styledText (row : Row) : String := appendStyled .plain "" row

def text (colored : Bool) (row : Row) : String :=
  if colored then row.styledText else row.plainText

end Row

/-- Draws on one of several rows. -/
def drawOn (rows : List Row) (row column : Nat) (text : List Char) (style : Style) : List Row :=
  rows.modify row fun r ↦ r.draw column text style

/-- Draws a character in one column of the rows from `first` on. -/
def drawDown (rows : List Row) (first count column : Nat) (c : Char) (style : Style) : List Row :=
  rows.mapIdx fun i r ↦ if first ≤ i ∧ i < first + count then r.draw column [c] style else r

end SchemaCodec
