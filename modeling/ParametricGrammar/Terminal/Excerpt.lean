import ParametricGrammar.Numeral
import ParametricGrammar.Terminal.Canvas
import ParametricGrammar.Terminal.Source
/-!
# Marked excerpts of sources

The source lines that a span is about, marked underneath, below a title and the name of the place. A
span on one line is underlined; one over several lines is joined by a bar on their left, with lines
in the middle left out when there are many. Lines that are too wide for a terminal are cut at either
end. How excerpts are laid out is a matter of terminals and of sources of any kind.
-/

namespace ParametricGrammar

namespace Terminal

/-- The number of columns that an excerpt may take. -/
def terminalWidth : Nat := 140

/-- What takes the place of source code that is left out. -/
def ellipsis : List Char := ['.', '.', '.']

/-- The columns of source code that are shown. -/
structure Window where
  first : Nat
  last : Nat
  /-- How wide shown code may be. -/
  width : Nat

/-- The measures that a window is chosen by. -/
structure Extent where
  /-- The blanks before the code of all shown lines. -/
  indentation : Nat
  /-- The leftmost marked column. -/
  markStart : Nat
  /-- The column behind the rightmost mark. -/
  markStop : Nat
  /-- The column behind the label. -/
  labelStop : Nat
  /-- The width of the widest shown line. -/
  widest : Nat

/-- The columns left free beside marks. -/
def padding : Nat := 6

/-- Chooses the window: all of the code if it fits, else as much around the marks as does. -/
def Window.choose (width : Nat) (extent : Extent) : Window :=
  let indentation := extent.indentation - padding
  let markStart := extent.markStart - padding
  let markStop := extent.markStop + padding
  let labelStop := extent.labelStop + padding
  let first := if indentation > 20 then indentation - 16 else 0
  let last := max extent.widest first
  if last - first ≤ width then ⟨first, last, width⟩
  else if labelStop - indentation ≤ width then ⟨indentation, indentation + width, width⟩
  else if labelStop - markStart ≤ width then
    let first := markStart - (width - (labelStop - markStart)) / 2
    ⟨first, first + width, width⟩
  else if markStop - markStart ≤ width then
    let first := markStart - (width - (markStop - markStart)) / 5 * 2
    ⟨first, first + width, width⟩
  else ⟨markStart, markStop, width⟩

/-- The first column of a line that the window shows. -/
def Window.left (window : Window) (lineWidth : Nat) : Nat :=
  min window.first lineWidth

/-- The column behind the last one of a line that the window shows. -/
def Window.right (window : Window) (lineWidth : Nat) : Nat :=
  if lineWidth - window.first ≤ window.width then lineWidth else min lineWidth window.last

/-- Drops characters until a number of columns is gone. -/
def dropColumns : Nat → List Char → List Char
  | 0, text => text
  | _ + 1, [] => []
  | missing + 1, char :: rest => dropColumns (missing + 1 - shownColumns char) rest

/-- The characters that fit into a number of columns. -/
def takeColumns (room : Nat) : List Char → List Char
  | [] => []
  | char :: rest =>
      if shownColumns char ≤ room then char :: takeColumns (room - shownColumns char) rest else []

/-- The shortest beginning of a text that is at least as wide as a number of columns, or all of
it. -/
def covering : Nat → List Char → List Char
  | 0, _ => []
  | _ + 1, [] => []
  | missing + 1, char :: rest => char :: covering (missing + 1 - shownColumns char) rest

/-- The part of a source line that a window shows. -/
structure Excision where
  /-- The columns of the line on the left of the shown part. -/
  left : Nat
  /-- The columns that the ellipsis on the left stands in for. -/
  lead : Nat
  /-- The characters behind that ellipsis. -/
  text : List Char
  /-- The number of characters at the end that an ellipsis on the right stands in for. -/
  tail : Option Nat

/-- Cuts a line to a window. Where an ellipsis stands in for wide characters, the code behind it
keeps its column. -/
def Window.cut (window : Window) (line : List Char) : Excision :=
  let width := widthOf line
  let left := window.left width
  let right := window.right width
  let rest := dropColumns left line
  let visible := takeColumns (right - left) rest
  let hidden := if window.first > 0 then covering ellipsis.length visible else []
  { left := width - widthOf rest
    lead := widthOf hidden
    text := visible.drop hidden.length
    tail :=
      if right < width then some (covering ellipsis.length visible.reverse).length else none }

/-- The frame that rows are drawn in. -/
structure Frame where
  /-- The width of the line numbers. -/
  numberWidth : Nat
  /-- Whether there is a bar that joins lines. -/
  barred : Bool
  window : Window

namespace Frame

/-- The column of the vertical line behind the line numbers. -/
def ruleColumn (frame : Frame) : Nat := frame.numberWidth + 1

/-- The column of the bar that joins lines. -/
def barColumn (frame : Frame) : Nat := frame.numberWidth + 3

/-- The column where source code starts. -/
def codeColumn (frame : Frame) : Nat :=
  if frame.barred then frame.numberWidth + 5 else frame.numberWidth + 3

/-- A row with the vertical line only. -/
def rule (frame : Frame) : Row :=
  Row.write [] frame.ruleColumn .frame ['|']

/-- The part of a line that the frame shows. -/
def cut (frame : Frame) (line : Line) : Excision :=
  frame.window.cut (line.text.flatMap shown)

/-- The number of a line as it stands before the vertical line. -/
def number (frame : Frame) (line : Line) : List Char :=
  let digits := (Numeral.decimal line.number).toList
  List.replicate (frame.numberWidth - digits.length) ' ' ++ digits

/-- The row of a source line. -/
def code (frame : Frame) (line : Line) : Row :=
  let cut := frame.cut line
  let row := if frame.window.first > 0 then Row.write [] frame.codeColumn .frame ellipsis else []
  let row := row.write (frame.codeColumn + cut.lead) .plain cut.text
  let row := match cut.tail with
    | some tail =>
        row.write (frame.codeColumn + cut.lead + cut.text.length - tail) .frame ellipsis
    | none => row
  (row.write 0 .frame (frame.number line)).write frame.ruleColumn .frame ['|']

/-- The column of a row at which a column of a source line is shown. -/
def columnOf (frame : Frame) (line : Line) (column : Nat) : Nat :=
  frame.codeColumn + column - (frame.cut line).left

/-- The column of a row at which a label stands behind a column of a source line. -/
def labelColumn (frame : Frame) (line : Line) (column : Nat) : Nat :=
  frame.codeColumn + (column + 1 - (frame.cut line).left)

/-- Whether a mark is so wide that its middle is left out. -/
def isLong (frame : Frame) (start stop : Nat) : Bool :=
  stop - start > frame.window.width * 2

/-- Leaves out the middle of a long mark. -/
def shorten (frame : Frame) (line : Line) (start stop : Nat) (row : Row) : Row :=
  if frame.isLong start stop then
    let margin := max (frame.window.width / 3) 5
    row.replace (frame.columnOf line (start + margin)) (frame.columnOf line (stop - margin))
      .frame ellipsis
  else row

/-- The row under a line that underlines columns and labels them. -/
def underline (frame : Frame) (line : Line) (start stop : Nat) (label : List Char) : Row :=
  let mark := List.replicate (stop - start) '^'
  let row := frame.rule.write (frame.columnOf line start) .problem mark
  row.write (frame.labelColumn line stop) .problem label

/-- The rows of a line with a mark under it. -/
def marked (frame : Frame) (line : Line) (start stop : Nat) (label : List Char) : List Row :=
  [frame.code line, frame.underline line start stop label].map (frame.shorten line start stop)

/-- Draws the bar that joins lines. -/
def bar (frame : Frame) (row : Row) : Row :=
  row.write frame.barColumn .problem ['|']

/-- Draws the line that leads from the bar to a mark at a column. -/
def leadTo (frame : Frame) (row : Row) (line : Line) (column : Nat) : Row :=
  let target := frame.columnOf line column
  let lead := List.replicate (target - (frame.barColumn + 1)) '_'
  (row.write (frame.barColumn + 1) .problem lead).write target .problem ['^']

/-- The rows of the first of several joined lines. -/
def opening (frame : Frame) (line : Line) (start : Nat) : List Row :=
  let row := frame.code line
  if ((line.text.flatMap shown).take start).all isBlank then
    [row.write frame.barColumn .problem ['/']]
  else [row, frame.leadTo (frame.rule.write frame.barColumn .problem [' ']) line start]

/-- The rows of the last of several joined lines. -/
def closing (frame : Frame) (line : Line) (stop : Nat) (label : List Char) : List Row :=
  let lead := frame.leadTo (frame.bar frame.rule) line (stop - 1)
  [frame.bar (frame.code line), lead.write (frame.labelColumn line (max stop 1)) .problem label]

end Frame

/-- Whether a line counts as empty where long spans are cut: it is blank, a comment or a lone
bracket. -/
def isSlight (line : List Char) : Bool :=
  let text := ((line.dropWhile isBlank).reverse.dropWhile isBlank).reverse
  match text with
  | [] | ['('] | [')'] | ['['] | [']'] | ['{'] | ['}'] => true
  | '/' :: '/' :: '/' :: _ | '/' :: '/' :: '!' :: _ => false
  | '/' :: '/' :: _ => true
  | _ => false

/-- The lines between the first and the last of a span that are shown. -/
def middleLines (lines : List Line) (first last : Nat) : List Line :=
  let middle := min (first + 4) last
  let substantial := lines.filter fun line =>
    first ≤ line.number && line.number < middle && !isSlight line.text
  let bound := (substantial.getLast?.map fun line => line.number + 1).getD first
  lines.filter fun line =>
    (first < line.number && line.number < bound) ||
      (line.number + 1 = last && middle < line.number && !isSlight line.text)

/-- The rows for what lies between two shown lines of a span. -/
def bridge (frame : Frame) (lines : List Line) (previous next : Nat) : List Row :=
  if next = previous + 2 then
    let between := lines.filter fun line => line.number = previous + 1
    between.map fun line => frame.bar (frame.code line)
  else if previous + 2 < next then [frame.bar (Row.write [] 0 .frame ellipsis)]
  else []

/-- The rows of lines that the bar passes, and of what lies between them and the last line. -/
def passing (frame : Frame) (lines : List Line) (last : Nat) : Nat → List Line → List Row
  | previous, [] => bridge frame lines previous last
  | previous, line :: rest =>
      bridge frame lines previous line.number ++ frame.bar (frame.code line) ::
        passing frame lines last line.number rest

/-- The columns of the blanks before the code of a line; a tab counts four and any other blank
one. -/
def indentOf (line : Line) : Nat :=
  (line.text.takeWhile isBlank).foldl (fun columns char => columns + if char = '\t' then 4 else 1) 0

/-- The blanks before the code of lines, as far as all with code have them. -/
def indentationOf (lines : List Line) : Nat :=
  let coded := lines.filter fun line => line.text.any fun char => !isBlank char
  ((coded.map indentOf).min?).getD 0

/-- The number of digits of a line number. -/
def digitsOf (number : Nat) : Nat := (Numeral.decimal number).length

/-- The lines of a source that a span is about. -/
structure Excerpt where
  /-- All lines of the source. -/
  lines : List Line
  /-- The line where the span starts. -/
  first : Line
  /-- The line where the span stops. -/
  last : Line
  start : Place
  /-- The column behind the last one of the span. -/
  stopColumn : Nat
  /-- The width of the line numbers. -/
  numberWidth : Nat

namespace Excerpt

/-- The width of line numbers up to the line that holds the last byte before an offset. -/
def numberWidthTo (lines : List Line) (offset : Nat) : Nat :=
  digitsOf (max 1 (lines.filter fun line => line.start < offset).length)

/-- The excerpt between two byte offsets. An empty mark is widened to one column. -/
def between (source : List Char) (front behind : Nat) : Excerpt :=
  let lines := linesOf source
  let first := lineAt lines front
  let start := startPlace lines front
  let numberWidth := numberWidthTo lines behind
  if front = behind then ⟨lines, first, first, start, start.display + 1, numberWidth⟩
  else
    let stop := stopPlace lines start behind
    let stopColumn :=
      if start.line = stop.line ∧ start.display = stop.display then stop.display + 1
      else stop.display
    ⟨lines, first, lineAt lines behind, start, stopColumn, numberWidth⟩

/-- Whether the span joins several lines. -/
def isJoined (excerpt : Excerpt) : Bool := excerpt.first.number ≠ excerpt.last.number

/-- The shown lines between the first and the last. -/
def middle (excerpt : Excerpt) : List Line :=
  if excerpt.isJoined then middleLines excerpt.lines excerpt.first.number excerpt.last.number
  else []

/-- All shown lines. -/
def shownLines (excerpt : Excerpt) : List Line :=
  if excerpt.isJoined then excerpt.first :: excerpt.middle ++ [excerpt.last] else [excerpt.first]

/-- The columns that marks and their label take. -/
def extent (excerpt : Excerpt) (label : List Char) : Extent :=
  let start := excerpt.start.display
  let stop := excerpt.stopColumn
  let lines := excerpt.shownLines
  let markStart := if excerpt.isJoined then min start (stop - 1) else start
  { indentation := min (indentationOf lines) markStart
    markStart := markStart
    markStop := if excerpt.isJoined then max (start + 1) stop else stop
    labelStop := max (if excerpt.isJoined then start + 1 else 0) (stop + widthOf label + 1)
    widest := ((lines.map fun line => widthOf line.text).max?).getD 0 }

/-- The frame that an excerpt is drawn in. -/
def frame (excerpt : Excerpt) (label : List Char) : Frame :=
  let codeColumn := excerpt.numberWidth + if excerpt.isJoined then 5 else 3
  { numberWidth := excerpt.numberWidth
    barred := excerpt.isJoined
    window := .choose (terminalWidth - codeColumn) (excerpt.extent label) }

/-- The rows that show an excerpt with its mark. -/
def rows (excerpt : Excerpt) (label : List Char) : List Row :=
  let frame := excerpt.frame label
  let marked :=
    if excerpt.isJoined then
      frame.opening excerpt.first excerpt.start.display ++
        passing frame excerpt.lines excerpt.last.number excerpt.first.number excerpt.middle ++
        frame.closing excerpt.last excerpt.stopColumn label
    else
      frame.marked excerpt.first excerpt.start.display excerpt.stopColumn label
  frame.rule :: marked

end Excerpt

/-- The parts of a text between its line feeds. -/
def partsOf (part : List Char) : List Char → List (List Char)
  | [] => [part.reverse]
  | '\n' :: rest => part.reverse :: partsOf [] rest
  | char :: rest => partsOf (char :: part) rest

/-- The rows of the title. Further lines of a message stand below its first one. -/
def title (message : List Char) : List Row :=
  let heading := Row.append [] .problem "error".toList
  match partsOf [] message with
  | [] => [heading]
  | first :: rest =>
      heading.append .strong (": ".toList ++ first) ::
        rest.map fun line =>
          Row.append (Row.append [] .plain (List.replicate 7 ' ')) .strong line

/-- The row that names a place. -/
def placeRow (path : String) (numberWidth : Nat) (place : Place) : Row :=
  let text := path ++ ":" ++ Numeral.decimal place.line ++ ":" ++ Numeral.decimal (place.column + 1)
  Row.append (Row.append (Row.append [] .plain (List.replicate numberWidth ' ')) .frame
    "--> ".toList) .plain text.toList

end Terminal

end ParametricGrammar
