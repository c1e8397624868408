import SchemaCodec.Diagnostic.Canvas
import SchemaCodec.Diagnostic.Lines
import SchemaCodec.Text.Whitespace

/-!
# Marks

Every place that a diagnostic shows becomes a mark on a line. A range within a line is one mark. A
range over several lines is a mark where it begins, one where it ends, and a bar through some of the
lines between; ranges that share lines have their bars at different depths, the outer ranges at the
left. Of the lines between, those next to the beginning are shown up to the last one of substance
among four, and the one before the end.
-/

namespace SchemaCodec.Snippet

/-- A range to be shown. -/
structure Note where
  isPrimary : Bool
  range : Span
  label : String

/-- What a mark is of a range. -/
inductive MarkShape where
  /-- The whole of a range within a line. -/
  | whole
  /-- The beginning, the end and the bar between, of a range at a depth. -/
  | opening (depth : Nat)
  | closing (depth : Nat)
  | between (depth : Nat)
deriving DecidableEq

/-- A marked part of a line, with its label if it has one. -/
structure Mark where
  shape : MarkShape
  /-- The columns from `first` up to `last`. -/
  first : Nat
  last : Nat
  /-- How many characters of the line are before the mark. -/
  char : Nat
  isPrimary : Bool
  label : Option String

namespace Mark

def isLabelled (mark : Mark) : Bool := mark.label.any fun label ↦ !label.isEmpty

/-- Whether a mark has a line of its own that leads to the bar. -/
def takesSpace (mark : Mark) : Bool :=
  match mark.shape with
  | .opening _ | .closing _ => true
  | _ => false

/-- The depth of the bar that begins with a mark. -/
def openedDepth? (mark : Mark) : Option Nat :=
  match mark.shape with
  | .opening depth => some depth
  | _ => none

/-- Whether a mark is nothing but a bar. -/
def isBetween (mark : Mark) : Bool :=
  match mark.shape with
  | .between _ => true
  | _ => false

def length (mark : Mark) : Nat := mark.last - mark.first

/-- Whether two marks meet, the first being followed by some columns of padding. -/
def overlaps (a b : Mark) (padding : Nat) : Bool :=
  (b.first ≤ a.first && a.first < b.last) || (a.first ≤ b.first && b.first < a.last + padding)

def underline (mark : Mark) : Char := if mark.isPrimary then '^' else '-'

def style (mark : Mark) : Style := if mark.isPrimary then .error else .ruler

end Mark

/-! ## Ranges over several lines -/

/-- A range over several lines. -/
structure Spread where
  first : Place
  last : Place
  isPrimary : Bool
  label : String
  depth : Nat
  /-- Whether another range is exactly the same. -/
  coincides : Bool

namespace Spread

def sameRange (a b : Spread) : Bool := a.first = b.first && a.last = b.last

def sharesLine (a b : Spread) : Bool :=
  (b.first.line ≤ a.first.line && a.first.line ≤ b.last.line) ||
    (a.first.line ≤ b.first.line && b.first.line ≤ a.last.line)

/-- Pushes ranges away from one of them, which stands at `position`: those in front that share a
line with it go deeper, and those that are the same are told so. It stops at the first one that
does neither, which is primary if one of the primary ranges seen by then is the same. -/
def pushAway (spread : Spread) (position : Nat) (primaries : List Spread) :
    (here : Nat) → List Spread → List Spread
  | _, [] => []
  | here, other :: rest =>
    if !spread.sameRange other && spread.sharesLine other then
      { other with depth := other.depth + 1 } :: pushAway spread position primaries (here + 1) rest
    else if spread.sameRange other && position ≠ here then
      { other with coincides := true } :: pushAway spread position primaries (here + 1) rest
    else
      (if primaries.any (sameRange other) then { other with isPrimary := true } else other) :: rest

/-- Goes through ranges, each pushing all of them away. -/
def settleFrom : (position : Nat) → (primaries : List Spread) → List Spread → List Spread →
    List Spread
  | _, _, [], all => all
  | position, primaries, spread :: rest, all =>
    let primaries := if spread.isPrimary then spread :: primaries else primaries
    settleFrom (position + 1) primaries rest (pushAway spread position primaries 0 all)

/-- Gives ranges their depths. -/
def settle (spreads : List Spread) : List Spread :=
  let sorted := spreads.mergeSort fun a b ↦
    a.first.line < b.first.line || (a.first.line = b.first.line && b.last.line ≤ a.last.line)
  settleFrom 0 [] sorted sorted

def greatestDepth (spreads : List Spread) : Nat :=
  spreads.foldl (fun depth spread ↦ max depth spread.depth) 0

/-- Whether a line has more to show than a delimiter or a remark. -/
def isOfSubstance (line : Line) : Bool :=
  let blank := Text.isWhitespace
  let text := ((line.chars.dropWhile blank).reverse.dropWhile blank).reverse
  let isRemark := "//".toList.isPrefixOf text && !"///".toList.isPrefixOf text &&
    !"//!".toList.isPrefixOf text
  !isRemark && !(["", "\x7b", "\x7d", "(", ")", "[", "]"].contains (String.ofList text))

/-- The lines between beginning and end that are shown. -/
def linesBetween (lines : List Line) (spread : Spread) : List Nat :=
  let first := spread.first.line
  let last := spread.last.line
  let middle := min (first + 4) last
  let holds (number : Nat) : Bool := (line? lines number).any isOfSubstance
  let stop := (((List.range' first (middle - first)).reverse.find? holds).map (· + 1)).getD
    first
  List.range' (first + 1) (stop - (first + 1)) ++
    (if middle < last - 1 && ((line? lines (last - 1)).all isOfSubstance) then [last - 1]
      else [])

/-- The marks of a range, with the numbers of their lines. -/
def marks (lines : List Line) (spread : Spread) : List (Nat × Mark) :=
  let mark (shape : MarkShape) (first last char : Nat) (label : Option String) : Mark :=
    ⟨shape, first, last, char, spread.isPrimary, label⟩
  let closing (shape : MarkShape) : Nat × Mark :=
    (spread.last.line, mark shape (spread.last.column - 1) spread.last.column
      (spread.last.char - 1) (some spread.label))
  if spread.coincides then [closing .whole]
  else
    (spread.first.line, mark (.opening spread.depth) spread.first.column
        (spread.first.column + 1) spread.first.char none) ::
      (linesBetween lines spread).map (fun number ↦
        (number, mark (.between spread.depth) 0 0 0 none)) ++
      [closing (.closing spread.depth)]

end Spread

/-! ## All marks -/

/-- The mark of a note within a line, or its range if that is over several lines. -/
def Note.place (lines : List Line) (note : Note) : (Nat × Mark) ⊕ Spread :=
  let (first, last) := places lines note.range
  if first.line = last.line then
    .inl (first.line, ⟨.whole, first.column, last.column, first.char, note.isPrimary, note.label⟩)
  else .inr ⟨first, last, note.isPrimary, note.label, 1, false⟩

/-- A line with marks. -/
structure MarkedLine where
  line : Line
  marks : List Mark

/-- The lines with marks, in order, and the number of bars that stand side by side. -/
def markedLines (lines : List Line) (notes : List Note) : List MarkedLine × Nat :=
  let placed := notes.map (Note.place lines)
  let spreads := Spread.settle (placed.filterMap Sum.getRight?)
  let depth := Spread.greatestDepth spreads
  let spreads := spreads.map fun spread ↦ { spread with depth := depth - spread.depth + 1 }
  let marks := placed.filterMap Sum.getLeft? ++ spreads.flatMap (Spread.marks lines)
  (lines.filterMap fun line ↦
    match marks.filter (fun mark ↦ mark.1 = line.number) with
    | [] => none
    | here => some ⟨line, here.map Prod.snd⟩, depth)

end SchemaCodec.Snippet
