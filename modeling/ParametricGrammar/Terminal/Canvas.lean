/-!
# Styled rows of characters

A row is drawn by writing styled texts at columns, later ones over earlier ones. A row without
colours is its characters; one with colours has escape sequences where the style changes.
-/

namespace ParametricGrammar

namespace Terminal

/-- The style of a character. -/
inductive Style where
  /-- Source code and blanks. -/
  | plain
  /-- The title of a report. -/
  | strong
  /-- What is wrong. -/
  | problem
  /-- Line numbers and the lines that frame source code. -/
  | frame
deriving DecidableEq

/-- The escape sequences that switch a style on. -/
def Style.start : Style → String
  | plain => ""
  | strong => "\x1b[1m"
  | problem => "\x1b[1m\x1b[91m"
  | frame => "\x1b[1m\x1b[94m"

/-- The escape sequence that switches a style off. -/
def Style.stop : Style → String
  | plain => ""
  | _ => "\x1b[0m"

/-- A row of styled characters. -/
abbrev Row := List (Style × Char)

namespace Row

/-- Writes a text at a column, behind blanks if the row is shorter. An empty text leaves no
trace. -/
def write (row : Row) (column : Nat) (style : Style) (text : List Char) : Row :=
  if text.isEmpty then row
  else
    row.take column ++ List.replicate (column - row.length) (.plain, ' ') ++
      text.map (style, ·) ++ row.drop (column + text.length)

/-- Puts a text in the place of the columns from `start` to `stop` if the row reaches that far. -/
def replace (row : Row) (start stop : Nat) (style : Style) (text : List Char) : Row :=
  if stop ≤ row.length then row.take start ++ text.map (style, ·) ++ row.drop stop else row

/-- Writes a text behind the row. -/
def append (row : Row) (style : Style) (text : List Char) : Row :=
  row ++ text.map (style, ·)

/-- The characters of a row with escape sequences, after characters of a style. -/
def colouredAfter (before : Style) : Row → String
  | [] => before.stop
  | (style, char) :: rest =>
      if style = before then String.singleton char ++ colouredAfter style rest
      else before.stop ++ style.start ++ String.singleton char ++ colouredAfter style rest

/-- The text of a row. -/
def text (colours : Bool) (row : Row) : String :=
  if colours then colouredAfter .plain row else String.ofList (row.map Prod.snd)

end Row

end Terminal

end ParametricGrammar
