import SchemaCodec.Decimal.Integer
import SchemaCodec.Diagnostic.Basic
import SchemaCodec.Diagnostic.Mark
import SchemaCodec.Diagnostic.Window

/-!
# Diagnostics against their source

A diagnostic is shown with the lines it concerns. Below a line, its marks are underlined and
labelled. Where labels would collide they move down, each to a row of its own, joined to its
underline by a vertical bar: first the rows are chosen, from right to left, and then everything is
drawn, the shorter underlines over the longer ones. Ranges over several lines are joined by bars
between the ruler and the lines.

The title shows controls by their pictures, as the lines do; a label is drawn as it is.
-/

namespace SchemaCodec.Snippet

/-! ## Rows for labels -/

/-- Whether a mark is pushed off the first row by one to its left. -/
def isPushed (mark next : Mark) : Bool :=
  next.overlaps mark 0 && mark.isLabelled &&
    !(next.first = mark.first && next.last = mark.last && !next.isLabelled)

/-- Whether a mark to the left has to stay clear of the row of a mark. -/
def mustClear (level : Nat) (mark next : Mark) : Bool :=
  let padding := match next.label with
    | some label => label.utf8ByteSize + 2
    | none => 0
  (next.overlaps mark padding && next.isLabelled &&
      (mark.isLabelled || (next.last ≤ mark.last && level = 0))) ||
    (mark.takesSpace && (next.isLabelled || next.takesSpace)) ||
    (mark.isLabelled && next.takesSpace)

/-- Where a mark at a position meets others, of all marks from `here` on up to the one that pushes
it: its own position and those of the others. Only from the third mark on is that asked, there of
the mark itself too, so that of two marks neither counts as met. -/
def meetings (level position : Nat) (mark : Mark) : (here : Nat) → List Mark → List Nat
  | _, [] => []
  | here, next :: rest =>
    (if 1 < here && next.overlaps mark 0 then [position, here] else []) ++
      (if position < here && level = 0 && isPushed mark next then []
        else meetings level position mark (here + 1) rest)

/-- Where labels go: the level of each mark, the lowest level, and the positions of the marks that
meet others. -/
structure Placement where
  levels : List (Nat × Mark)
  lowest : Nat
  met : List Nat

/-- Chooses the level of each label, from the rightmost mark to the leftmost one. Level zero is
beside the underline. -/
def assignLevels (all : List Mark) (position level : Nat) : List Mark → Placement
  | [] => ⟨[], 0, []⟩
  | mark :: later =>
    let met := meetings level position mark 0 all
    let level := if level = 0 && later.any (isPushed mark) then 1 else level
    let below := if later.any (mustClear level mark) then level + 1 else level
    let rest := assignLevels all (position + 1) below later
    ⟨(level, mark) :: rest.levels, max below rest.lowest, met ++ rest.met⟩

/-- The levels of marks and the number of rows they need below the first. Where all marks open
bars, the rightmost one goes lowest, so that the lines to the bars do not cross. -/
def placement (marks : List Mark) : Placement :=
  let sorted := marks.mergeSort fun a b ↦
    b.first < a.first || (a.first = b.first && b.char ≤ a.char)
  let placed := assignLevels sorted 0 0 sorted
  let lowest := if placed.lowest = 0 then 0 else placed.lowest + 1
  if sorted.all fun mark ↦ mark.openedDepth?.isSome then
    let greatest := placed.levels.foldl (fun greatest mark ↦ max greatest mark.1) 0
    { placed with
      levels := placed.levels.map fun (level, mark) ↦ (greatest - level, mark)
      lowest := lowest - 1 }
  else { placed with lowest := lowest }

/-! ## Drawing -/

/-- Where things stand: the width of line numbers, the number of bars side by side, and the window
on the lines. -/
structure Frame where
  gutter : Nat
  depth : Nat
  window : Window

namespace Frame

def pageWidth : Nat := 140

/-- The column of the bar at depth one; deeper ones are to its right. -/
def barColumn (frame : Frame) : Nat := frame.gutter + 3

/-- The column of the first character of a line, bars of a given number being beside it. -/
def lineColumn (gutter depth : Nat) : Nat := if depth = 0 then gutter + 3 else gutter + depth + 4

/-- The column of the first character of a line. -/
def codeColumn (frame : Frame) : Nat := lineColumn frame.gutter frame.depth

/-- A row that holds the ruler. -/
def ruler (frame : Frame) : Row := Row.draw [] (frame.gutter + 1) ['|'] .ruler

/-- A number at the right end of the gutter. -/
def number (frame : Frame) (n : Nat) : List Char :=
  let digits := (Decimal.natText n).toList
  List.replicate (frame.gutter - digits.length) ' ' ++ digits

/-- Draws bars at depths on rows. -/
def drawBars (frame : Frame) (bars : List (Nat × Style)) (rows : List Row) : List Row :=
  rows.map fun row ↦ bars.foldl (fun row (depth, style) ↦
    row.draw (frame.barColumn + depth - 1) ['|'] style) row

end Frame

/-- A line of the source with its number, and the columns of it that are hidden on the left. -/
def sourceRow (frame : Frame) (line : Line) : Row × Nat :=
  let (row, left) := drawThrough frame.window frame.codeColumn [] (Text.shown line.chars)
  ((row.draw 0 (frame.number line.number) .ruler).draw (frame.gutter + 1) ['|'] .ruler, left)

/-- Draws the parts of the bars that are beside the rows of a line. -/
def drawBarEnds (frame : Frame) (lowest : Nat) (rows : List Row) (placed : Nat × Mark) :
    List Row :=
  let (level, mark) := placed
  let row := level + 1
  match mark.shape with
  | .opening depth =>
    let rows := drawOn rows row (frame.barColumn + depth - 1) [' '] mark.style
    drawDown rows (row + 1) (lowest + 2 - (row + 1)) (frame.barColumn + depth - 1) '|' mark.style
  | .closing depth =>
    let rows := drawDown rows 0 row (frame.barColumn + depth - 1) '|' mark.style
    drawOn rows row (frame.barColumn + depth - 1) ['|'] mark.style
  | _ => rows

/-- Draws the horizontal line from a mark to its bar. -/
def drawHorizontal (frame : Frame) (left : Nat) (rows : List Row) (placed : Nat × Mark) :
    List Row :=
  let (level, mark) := placed
  match mark.shape with
  | .opening depth | .closing depth =>
    rows.modify (level + 1) fun row ↦
      row.drawRange (frame.barColumn + depth) (frame.codeColumn + mark.first - left) '_' mark.style
  | _ => rows

/-- Draws the vertical line from a mark down to its level. -/
def drawVertical (frame : Frame) (left lowest : Nat) (rows : List Row) (placed : Nat × Mark) :
    List Row :=
  let (level, mark) := placed
  let rows :=
    if 0 < level && (mark.isLabelled || mark.takesSpace) then
      drawDown rows 1 (level + 1) (frame.codeColumn + mark.first - left) '|' mark.style
    else rows
  drawBarEnds frame lowest rows placed

/-- Draws the label of a mark: beside its underline, or below it at the mark's level. -/
def drawLabel (frame : Frame) (left : Nat) (rows : List Row) (placed : Nat × Mark) : List Row :=
  let (level, mark) := placed
  match mark.label with
  | none => rows
  | some label =>
    let (row, column) :=
      if 0 < level then (level + 2, mark.first - left)
      else (1, mark.last + (if mark.last = 0 then 2 else 1) - left)
    drawOn rows row (frame.codeColumn + column) label.toList mark.style

/-- Draws the underline of a mark. Where a line leads away from it, its first column is drawn
last. -/
def drawUnderline (frame : Frame) (left : Nat) (rows : List Row) (placed : Nat × Mark) :
    List Row :=
  let (level, mark) := placed
  let rows := rows.modify 1 fun row ↦
    row.drawRange (frame.codeColumn + mark.first - left) (frame.codeColumn + mark.last - left)
      mark.underline mark.style
  if mark.takesSpace || (0 < level && mark.isLabelled) then
    drawOn rows 1 (frame.codeColumn + mark.first - left) [mark.underline] mark.style
  else rows

/-- Takes the middle out of an underline much wider than the page and of the line above it. -/
def shorten (frame : Frame) (left : Nat) (rows : List Row) (mark : Mark) : List Row :=
  let page := frame.window.width
  if mark.shape = .whole ∧ max (2 * page) 10 < mark.length then
    let kept := max (page / 3) 5
    let first := frame.codeColumn + mark.first + kept - left
    let last := frame.codeColumn + mark.last - kept - left
    (rows.take 2).map (fun row ↦ row.splice first last dots .ruler) ++ rows.drop 2
  else rows

/-- Whether only blanks are before the bars that begin on a line, and nothing else is marked on
it. -/
def beginsBlank (cs : List Char) (marks : List Mark) : Bool :=
  marks.all fun mark ↦
    mark.isBetween || (mark.openedDepth?.isSome && (cs.take mark.first).all Text.isWhitespace)

/-- A line with its marks below it, and the bars that begin or end on it. -/
def annotated (frame : Frame) (marked : MarkedLine) : List Row × List (Nat × Style) :=
  let (source, left) := sourceRow frame marked.line
  if beginsBlank (Text.shown marked.line.chars) marked.marks then
    let bars := marked.marks.filterMap fun mark ↦
      mark.openedDepth?.map fun depth ↦ (depth, mark.style)
    ([bars.foldl (fun row (depth, style) ↦
      row.draw (frame.barColumn + depth - 1) ['/'] style) source], bars)
  else
    let placed := placement marked.marks
    let rows := source :: List.replicate (placed.lowest + 1) frame.ruler
    let rows := placed.levels.foldl (drawHorizontal frame left) rows
    let rows := placed.levels.foldl (drawVertical frame left placed.lowest) rows
    let rows := placed.levels.foldl (drawLabel frame left) rows
    -- the longest first, so that shorter underlines are drawn over longer ones
    let byLength := placed.levels.mergeSort fun a b ↦
      b.2.length < a.2.length || (a.2.length = b.2.length && (!a.2.isPrimary || b.2.isPrimary))
    let rows := byLength.foldl (drawUnderline frame left) rows
    let alone := (byLength.mapIdx fun i (_, mark) ↦ (i, mark)).filter fun (i, _) ↦
      !placed.met.contains i
    (alone.foldl (fun rows (_, mark) ↦ shorten frame left rows mark) rows,
      byLength.filterMap fun (_, mark) ↦
        match mark.shape with
        | .opening depth | .closing depth => some (depth, mark.style)
        | _ => none)

/-- What stands between two lines that are shown: nothing, the line between them, or dots. -/
def gap (frame : Frame) (lines : List Line) (upper lower : Nat) : List Row :=
  if upper + 2 < lower then [Row.draw [] 0 dots .ruler]
  else if upper + 2 = lower then
    ((line? lines (upper + 1)).map fun line ↦ (sourceRow frame line).1).toList
  else []

/-- Ends the bar of a depth if it is there, or else begins it; the bars that go on are kept apart
from those that begin. -/
def toggle (bars : List (Nat × Style) × List (Nat × Style)) (bar : Nat × Style) :
    List (Nat × Style) × List (Nat × Style) :=
  let others := fun (other : Nat × Style) ↦ other.1 ≠ bar.1
  if bars.1.all others then (bars.1, bars.2.filter others ++ [bar])
  else (bars.1.filter others, bars.2)

/-- The marked lines with the gaps between them. A bar runs beside every row from the line it begins
on to the line it ends on. -/
def body (frame : Frame) (lines : List Line) : (bars : List (Nat × Style)) → List MarkedLine →
    List Row
  | _, [] => []
  | bars, marked :: rest =>
    let (rows, changed) := annotated frame marked
    let (kept, begun) := changed.foldl toggle (bars, [])
    let between := match rest with
      | [] => []
      | next :: _ =>
        let opened := marked.marks.filterMap fun mark ↦
          mark.openedDepth?.map fun depth ↦ (depth, mark.style)
        frame.drawBars (kept ++ opened) (gap frame lines marked.line.number next.line.number)
    frame.drawBars kept rows ++ between ++ body frame lines (kept ++ begun) rest

/-! ## Whole diagnostics -/

def extent (marked : List MarkedLine) : Extent :=
  let indentations := marked.filterMap fun m ↦
    if m.line.chars.all Text.isWhitespace then none
    else
      some ((m.line.chars.takeWhile Text.isWhitespace).foldl
        (fun sum c ↦ sum + if c = '\t' then 4 else 1) 0)
  let marks := marked.flatMap MarkedLine.marks
  let ends := marks.flatMap fun mark ↦ [mark.first, mark.last]
  ⟨indentations.min?.getD 0, ends.min?.getD 0, ends.max?.getD 0,
    (marks.map fun mark ↦ mark.last + match mark.label with
      | some label => Text.columnsOf label.toList + 1
      | none => 0).max?.getD 0,
    (marked.map fun m ↦ Text.columnsOf m.line.chars).max?.getD 0⟩

/-- An empty range is widened by a byte, so that its mark shows, but not past the end. -/
def widen (limit : Nat) (range : Span) : Span :=
  if range.start = range.stop then ⟨range.start, min (range.start + 1) limit⟩ else range

/-- What a diagnostic shows of a text of `size` bytes: its own range with its message, and the
related ones. -/
def notes (size : Nat) (d : Diagnostic) : List Note :=
  ⟨true, widen size d.range, d.message⟩ ::
    d.related.map fun (label, range) ↦ ⟨false, widen size range, label⟩

/-- The parts of a text between its line feeds. -/
def partsOf (cs : List Char) : List (List Char) := cs.splitOn '\n'

/-- The title; further lines of the message stand below its first one. -/
def titleRows (d : Diagnostic) : List Row :=
  let name := d.kind.severity.name.toList
  let start := (Row.append [] name .error).append [':', ' '] .title
  match partsOf (Text.shown d.message.toList) with
  | [] => [start]
  | first :: rest =>
    start.append first .title ::
      rest.map fun part ↦
        (Row.append [] (List.replicate start.length ' ') .plain).append part .title

/-- How diagnostics are shown: the path of the source, if it has one, and whether in color. -/
structure Options where
  path : Option String
  colored : Bool

/-- The row that says where the primary mark is. -/
def placeRows (options : Options) (gutter : Nat) (marked : List MarkedLine) : List Row :=
  match options.path, marked.findSome? fun m ↦
    (m.marks.find? Mark.isPrimary).map fun mark ↦ (m.line.number, mark.char + 1) with
  | some path, some (line, char) =>
    [(Row.draw [] gutter "--> ".toList .ruler).append
      (path ++ ":" ++ Decimal.natText line ++ ":" ++ Decimal.natText char).toList .plain]
  | _, _ => []

/-- The rows of a diagnostic against a text of `size` bytes in lines. -/
def rows (options : Options) (size : Nat) (lines : List Line) (d : Diagnostic) : List Row :=
  let notes := notes size d
  let (marked, depth) := markedLines lines notes
  let last := min size ((notes.map fun note ↦ note.range.stop).max?.getD size)
  let gutter := (Decimal.natText (lastNumber lines last)).length
  let width := Frame.pageWidth - Frame.lineColumn gutter depth
  let frame : Frame := ⟨gutter, depth, Window.place width (extent marked)⟩
  titleRows d ++ placeRows options gutter marked ++ frame.ruler :: body frame lines [] marked

/-- The texts of diagnostics against their source, one below another. -/
def renderAll (options : Options) (source : String) (ds : List Diagnostic) : String :=
  let lines := lines source
  "\n".intercalate (ds.flatMap fun d ↦
    (rows options source.utf8ByteSize lines d).map (Row.text options.colored))

end SchemaCodec.Snippet
