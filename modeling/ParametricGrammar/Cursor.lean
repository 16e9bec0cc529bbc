/-!
# Places in a text

Places are counted in bytes of the UTF-8 encoding. A cursor splits a text at a character boundary;
`slice?` takes the text between two places and is undefined off the boundaries.
-/

namespace ParametricGrammar

/-- The number of bytes that characters take. -/
def byteLength : List Char → Nat
  | [] => 0
  | char :: rest => char.utf8Size + byteLength rest

@[simp] theorem byteLength_nil : byteLength [] = 0 := rfl

@[simp] theorem byteLength_cons (char : Char) (rest : List Char) :
    byteLength (char :: rest) = char.utf8Size + byteLength rest := rfl

/-- Splits a text at a byte offset, if it is a character boundary, with the first part reversed onto
what comes before it. -/
def splitBytes? : Nat → List Char → List Char → Option (List Char × List Char)
  | 0, before, rest => some (before, rest)
  | _ + 1, _, [] => none
  | bytes + 1, before, char :: rest =>
      if char.utf8Size ≤ bytes + 1 then
        splitBytes? (bytes + 1 - char.utf8Size) (char :: before) rest
      else none

theorem byteLength_of_splitBytes? {bytes : Nat} {before rest first last : List Char}
    (split : splitBytes? bytes before rest = some (first, last)) :
    bytes + byteLength before = byteLength first := by
  fun_induction splitBytes? bytes before rest with
  | case1 => simp_all
  | case2 => simp at split
  | case3 bytes before char rest fits induction =>
      have := induction split
      simp at this
      omega
  | case4 => simp at split

/-- The characters between two byte offsets, if both are character boundaries in order. -/
def slice? (text : List Char) (start stop : Nat) : Option (List Char) :=
  if start ≤ stop then
    match splitBytes? start [] text with
    | some (_, rest) => (splitBytes? (stop - start) [] rest).map fun parts => parts.1.reverse
    | none => none
  else none

/-- The text between two byte offsets, empty where there is none. -/
def slice (text : List Char) (start stop : Nat) : String :=
  String.ofList ((slice? text start stop).getD [])

/-- A place in a text: the characters before it, nearest first, and those after it. -/
structure Cursor where
  before : List Char
  rest : List Char
  offset : Nat
  offset_eq : offset = byteLength before := by simp

namespace Cursor

/-- The start of a text. -/
def start (text : List Char) : Cursor := { before := [], rest := text, offset := 0 }

/-- Moves over the next character. -/
def next? (cursor : Cursor) : Option (Char × Cursor) :=
  match cursor.rest with
  | [] => none
  | char :: rest =>
      some (char,
        { before := char :: cursor.before
          rest := rest
          offset := cursor.offset + char.utf8Size
          offset_eq := by simp [cursor.offset_eq, Nat.add_comm] })

/-- Moves back over the previous character. -/
def previous? (cursor : Cursor) : Option Cursor :=
  match same : cursor.before with
  | [] => none
  | char :: before =>
      some
        { before := before
          rest := char :: cursor.rest
          offset := cursor.offset - char.utf8Size
          offset_eq := by simp [cursor.offset_eq, same] }

/-- Moves over the given characters if they come next. -/
def skip? (cursor : Cursor) : List Char → Option Cursor
  | [] => some cursor
  | wanted :: more =>
      match cursor.next? with
      | some (char, after) => if char = wanted then after.skip? more else none
      | none => none

/-- The cursor at a byte offset of a text, if it is a character boundary. -/
def at? (text : List Char) (offset : Nat) : Option Cursor :=
  match split : splitBytes? offset [] text with
  | some (before, rest) =>
      some
        { before := before
          rest := rest
          offset := offset
          offset_eq := by simpa using byteLength_of_splitBytes? split }
  | none => none

/-- Whether the place is the start of the text or follows a line break. -/
def startsLine (cursor : Cursor) : Bool :=
  match cursor.before with
  | [] => true
  | char :: _ => char = '\n' || char = '\r'

/-- The number of spaces right after the place. -/
def spacesAhead (cursor : Cursor) : Nat :=
  (cursor.rest.takeWhile (· = ' ')).length

end Cursor

end ParametricGrammar
