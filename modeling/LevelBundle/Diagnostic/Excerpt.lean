/-
  LevelBundle — excerpts of script texts.

  An excerpt shows the rows of a text that a label marks, with the number of each
  row before a border and carets under what is marked.  Tabs stand at every
  fourth column, and a wide character has two carets.

  A label over several rows is drawn as a line beside them.  Its first four rows
  and its last two are shown; a longer run between is left out.
-/
import LevelBundle.Script.Source
import LevelBundle.Text.Hex
import LevelBundle.Text.Width

namespace LevelBundle

/-- A part of a text, and what is said about it. -/
structure Excerpt where
  /-- The name of the text. -/
  name : String
  /-- The text. -/
  text : List Char
  /-- The offset of the first byte that is marked. -/
  start : Nat
  /-- The offset after the last byte that is marked. -/
  stop : Nat
  /-- What is said. -/
  label : String

namespace Excerpt

/-! ## Rows -/

/-- A row of a text. -/
structure Row where
  /-- The number of the row, from one on. -/
  number : Nat
  /-- The offset of its first byte. -/
  start : Nat
  /-- Its characters with the line feed. -/
  text : List Char

/-- Numbers the rows of some characters from `number` on, the first of which starts
    at `start`.  A row follows every line feed, also the last. -/
def rowsFrom (number start : Nat) (row : List Char) : List Char → List Row
  | [] => [⟨number, start, row.reverse⟩]
  | c :: cs =>
    if c = '\n' then
      ⟨number, start, (c :: row).reverse⟩
        :: rowsFrom (number + 1) (start + byteLength (c :: row)) [] cs
    else rowsFrom number start (c :: row) cs

/-- The rows of the text. -/
def rows (e : Excerpt) : List Row := rowsFrom 1 0 [] e.text

/-- The row of a byte: the last one that does not start behind it. -/
def rowAt (rows : List Row) (offset : Nat) : Row :=
  ((rows.takeWhile fun row => row.start ≤ offset).getLast?).getD ⟨1, 0, []⟩

namespace Row

/-- The characters of a row that are shown. -/
def shown (r : Row) : List Char :=
  Text.dropEndWhile (fun c => c = '\n' || c = '\r' || c = '\x00') r.text

/-- The number of bytes of the blanks a row starts with. -/
def indent (r : Row) : Nat := byteLength (r.shown.takeWhile Text.isBlank)

/-- How many of some characters, the first of which starts at `start`, end at or
    before an offset. -/
def endingBy (offset start : Nat) : List Char → Nat
  | [] => 0
  | c :: cs =>
    (if start + c.utf8Size ≤ offset then 1 else 0) + endingBy offset (start + c.utf8Size) cs

/-- The number of the column of a byte, from one on. -/
def column (r : Row) (offset : Nat) : Nat := endingBy offset r.start r.text + 1

end Row

/-! ## Cells -/

/-- A character on the grid of columns. -/
structure Cell where
  /-- The character. -/
  char : Char
  /-- The offset of its first byte in the row. -/
  offset : Nat
  /-- The number of columns it takes. -/
  width : Nat

/-- Lays characters out from an offset and a column on. -/
def cellsFrom (offset column : Nat) : List Char → List Cell
  | [] => []
  | c :: cs =>
    let width := if c = '\t' then 4 - column % 4 else Text.charWidth c
    ⟨c, offset, width⟩ :: cellsFrom (offset + c.utf8Size) (column + width) cs

/-- The cells of a row. -/
def Row.cells (r : Row) : List Cell := cellsFrom 0 0 r.shown

/-- A character repeated. -/
def run (n : Nat) (c : Char) : String := String.ofList (List.replicate n c)

/-- The characters of a row on the grid. -/
def Row.render (r : Row) : String :=
  String.join (r.cells.map fun cell =>
    if cell.char = '\t' then run cell.width ' ' else String.ofList [cell.char])

/-- What stands under a cell for a label that takes the bytes from `start` on up to
    `stop`. -/
def Cell.under (start stop : Nat) (cell : Cell) : String :=
  if max start cell.offset < min stop (cell.offset + cell.char.utf8Size) then run cell.width '^'
  else if cell.offset < stop then run cell.width ' '
  else ""

/-- The carets under a row.  The place behind the row can be marked too. -/
def Row.carets (r : Row) (start stop : Nat) : String :=
  let behind : Cell := { char := '\x00', offset := byteLength r.shown, width := 1 }
  String.join ((r.cells ++ [behind]).map (Cell.under start stop))

/-- The line under a row that leads to the byte at an offset. -/
def Row.rule (r : Row) (offset : Nat) : String :=
  String.join ((r.cells.takeWhile (·.offset < offset)).map fun cell => run cell.width '─')

/-! ## Marks -/

/-- How a label marks a row. -/
inductive Mark where
  /-- The label lies in the row. -/
  | within (start stop : Nat)
  /-- The label starts in the row and goes on below. -/
  | opens (offset : Nat)
  /-- The label takes the whole row. -/
  | through
  /-- The label starts above and ends in the row. -/
  | closes (offset : Nat)
  /-- The row is not marked. -/
  | apart

end Excerpt

/-- An excerpt with the rows its label starts and ends in. -/
structure Frame extends Excerpt where
  /-- The row the label starts in. -/
  first : Excerpt.Row
  /-- The row the label ends in. -/
  last : Excerpt.Row

namespace Frame

open Excerpt

/-- The frame of an excerpt whose text has some rows. -/
def of (e : Excerpt) (rows : List Row) : Frame :=
  { e with first := rowAt rows e.start, last := rowAt rows e.stop }

/-- Whether the label lies in one row. -/
def oneRow (f : Frame) : Bool := f.first.number == f.last.number

/-- How the label marks a row. -/
def mark (f : Frame) (r : Row) : Mark :=
  let start := f.start - f.first.start
  let stop := f.stop - f.last.start
  if f.oneRow then
    if r.number = f.first.number then .within start (max stop (start + 1)) else .apart
  else if r.number = f.first.number then .opens start
  else if r.number = f.last.number then .closes stop
  else if f.first.number < r.number ∧ r.number < f.last.number then .through
  else .apart

/-- The column beside a source row in which a label over several rows is drawn. -/
def beside (r : Row) : Mark → String
  | .within _ _ => ""
  | .opens offset => if offset ≤ r.indent then " ╭" else "  "
  | .through | .closes _ => " │"
  | .apart => "  "

/-- The column beside a gap after a row. -/
def besideGap : Mark → String
  | .within _ _ => ""
  | .opens _ | .apart => "  "
  | .through | .closes _ => " │"

/-- Whether a row is shown for its own sake: the label starts or ends in it, or the
    row is one of the three after the start or the one before the end. -/
def wanted (f : Frame) (number : Nat) : Bool :=
  let first := f.first.number
  let last := f.last.number
  number == first || number == last
    || (first < number && number < last && (number ≤ first + 3 || last ≤ number + 1))

/-- Whether a row is shown.  A single row is not left out. -/
def isVisible (f : Frame) (number : Nat) : Bool :=
  f.wanted number || (f.wanted (number - 1) && f.wanted (number + 1))

/-! ## Lines -/

/-- The width of the column of numbers. -/
def numberWidth (f : Frame) : Nat :=
  (toString (max f.first.number f.last.number)).length

/-- The start of a line without a number. -/
def gutter (f : Frame) : String := run (f.numberWidth + 1) ' '

/-- The line that says where the label starts. -/
def locus (f : Frame) : String :=
  s!"{f.gutter}┌─ {f.name}:{f.first.number}:{f.first.column f.start}"

/-- A line with the border only. -/
def border (f : Frame) : String :=
  f.gutter ++ "│" ++ if f.oneRow then "" else "  "

/-- The line of a row. -/
def sourceLine (f : Frame) (r : Row) : String :=
  Text.padLeft f.numberWidth ' ' (toString r.number) ++ s!" │{beside r (f.mark r)} {r.render}"

/-- The lines under a row that carry its mark. -/
def markLines (f : Frame) (r : Row) : List String :=
  match f.mark r with
  | .within start stop => [s!"{f.gutter}│ {r.carets start stop} {f.label}"]
  | .opens offset =>
    if offset ≤ r.indent then [] else [s!"{f.gutter}│ ╭{r.rule (offset + 1)}^"]
  | .closes offset => [s!"{f.gutter}│ ╰{r.rule offset}^ {f.label}"]
  | .through | .apart => []

/-- The lines for a row, if it is shown, or for the gap that starts there. -/
def rowLines (f : Frame) (above : Option Row) (r : Row) : List String :=
  if f.isVisible r.number then f.sourceLine r :: f.markLines r
  else match above with
    | some row => if f.isVisible row.number then [f.gutter ++ "·" ++ besideGap (f.mark row)] else []
    | none => []

/-- The lines for rows, each with the one above it. -/
def linesFrom (f : Frame) (above : Option Row) : List Row → List String
  | [] => []
  | r :: rs => f.rowLines above r ++ f.linesFrom (some r) rs

/-- Those of some rows that lie between the ends of the label. -/
def span (f : Frame) (rows : List Row) : List Row :=
  let low := min f.first.number f.last.number
  let high := max f.first.number f.last.number
  rows.filter fun row => low ≤ row.number && row.number ≤ high

/-- The lines of the frame over its rows. -/
def render (f : Frame) (rows : List Row) : List String :=
  f.locus :: f.border :: f.linesFrom none (f.span rows)

/-- The lines that help. -/
def helpLines (f : Frame) (help : String) : List String :=
  [f.border, s!"{f.gutter}= help: {help}"]

end Frame

/-- The lines of the excerpt, and below them those that help. -/
def Excerpt.render (e : Excerpt) (help : Option String) : List String :=
  let rows := e.rows
  let f := Frame.of e rows
  f.render rows ++ (help.map f.helpLines).getD []

end LevelBundle
