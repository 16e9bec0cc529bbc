import ParametricGrammar.Cursor
import ParametricGrammar.Terminal.Width
/-!
# Source lines

The lines of a source with their byte ranges, the line and column of a byte offset, and the form in
which characters are shown.
-/

namespace ParametricGrammar

namespace Terminal

/-- Whether a character is blank. -/
def isBlank (char : Char) : Bool :=
  let code := char.toNat
  (9 ≤ code && code ≤ 13) || code = 0x20 || code = 0x85 || code = 0xa0 || code = 0x1680 ||
    (0x2000 ≤ code && code ≤ 0x200a) || code = 0x2028 || code = 0x2029 || code = 0x202f ||
    code = 0x205f || code = 0x3000

/-- Whether a character changes the direction of text. -/
def isDirectional (char : Char) : Bool :=
  let code := char.toNat
  (0x202a ≤ code && code ≤ 0x202e) || (0x2066 ≤ code && code ≤ 0x2069)

/-- A character as it is shown: tabs as four blanks and control characters by their pictures. -/
def shown (char : Char) : List Char :=
  let code := char.toNat
  if char = '\t' then [' ', ' ', ' ', ' ']
  else if char = '\n' then [char]
  else if code < 0x20 then [Char.ofNat (0x2400 + code)]
  else if code = 0x7f then [Char.ofNat 0x2421]
  else if code = 0x200d then []
  else if isDirectional char then [Char.ofNat 0xfffd]
  else [char]

/-- The number of columns that a character takes when it is shown. -/
def shownColumns (char : Char) : Nat :=
  if char = '\t' then 4 else if isDirectional char then 1 else columns char

/-- The width of shown characters. -/
def widthOf : List Char → Nat
  | [] => 0
  | char :: rest => shownColumns char + widthOf rest

/-- A line of a source. -/
structure Line where
  /-- The number of the line, from one on. -/
  number : Nat
  text : List Char
  /-- The byte offset of its start. -/
  start : Nat
  /-- The byte offset behind its line break. -/
  stop : Nat
  /-- The bytes of its line break. -/
  breakSize : Nat

/-- Splits a text at its line feeds, which stay with the lines that they end. -/
def splitLines (line : List Char) : List Char → List (List Char)
  | [] => if line.isEmpty then [] else [line.reverse]
  | '\n' :: rest => ('\n' :: line).reverse :: splitLines [] rest
  | char :: rest => splitLines (char :: line) rest

/-- A line without its line break, and the bytes of that. -/
def withoutBreak (line : List Char) : List Char × Nat :=
  match line.reverse with
  | '\n' :: '\r' :: rest => (rest.reverse, 2)
  | '\n' :: rest => (rest.reverse, 1)
  | _ => (line, 0)

/-- Numbers lines and places them from an offset on. -/
def placeLines (number offset : Nat) : List (List Char) → List Line
  | [] => []
  | line :: rest =>
      let (text, breakSize) := withoutBreak line
      let stop := offset + byteLength line
      ⟨number, text, offset, stop, breakSize⟩ :: placeLines (number + 1) stop rest

/-- The lines of a source; a source without text has one line. -/
def linesOf (source : List Char) : List Line :=
  if source.isEmpty then [⟨1, [], 0, 0, 0⟩] else placeLines 1 0 (splitLines [] source)

/-- A place in a source. -/
structure Place where
  line : Nat
  /-- The number of characters before it on its line. -/
  column : Nat
  /-- The number of columns before it on its line. -/
  display : Nat

/-- The characters of a text before a byte offset. -/
def charsBefore (offset : Nat) : List Char → List Char
  | [] => []
  | char :: rest =>
      if char.utf8Size ≤ offset then char :: charsBefore (offset - char.utf8Size) rest else []

/-- The line that holds a byte offset, the last one for offsets behind all. -/
def lineAt (lines : List Line) (offset : Nat) : Line :=
  ((lines.find? fun line => line.start ≤ offset && offset < line.stop).orElse fun _ =>
    lines.getLast?).getD ⟨1, [], 0, 0, 0⟩

/-- The place of a byte offset, and whether it lies behind the text of its line. -/
def placeOf (lines : List Line) (offset : Nat) : Place × Line :=
  let line := lineAt lines offset
  let before := charsBefore (offset - line.start) line.text
  (⟨line.number, before.length, widthOf before⟩, line)

/-- The place where a span starts. A start inside a line break counts one more character. -/
def startPlace (lines : List Line) (offset : Nat) : Place :=
  let (place, line) := placeOf lines offset
  if offset - line.start > byteLength line.text then { place with column := place.column + 1 }
  else place

/-- The place where a span ends, given where it starts. -/
def stopPlace (lines : List Line) (start : Place) (offset : Nat) : Place :=
  let (place, line) := placeOf lines offset
  if start.line ≠ place.line ∧ offset > line.stop - line.breakSize then
    { place with column := place.column + 1, display := place.display + 1 }
  else place

end Terminal

end ParametricGrammar
