/-!
# Variable-length numbers

Numbers are written as groups of seven bits, the lowest first, each but the last with its high bit
set. Readers take the bytes ahead and return those behind what they read.
-/

namespace ParametricGrammar

namespace Binary

/-- Bytes of a binary form. -/
abbrev Bytes := List UInt8

/-- Why bytes could not be read. -/
inductive Error where
  /-- The bytes end too early. -/
  | endOfBuffer
  /-- A number has too many groups, or too large a last one. -/
  | unterminatedNumber
  /-- A truth value is neither zero nor one. -/
  | invalidBool
  /-- The mark of an optional value is neither zero nor one. -/
  | invalidOption
  /-- The bytes of a text are not UTF-8. -/
  | invalidText
  /-- No variant has the index. -/
  | unknownVariant
deriving DecidableEq

/-- The wording of an error. -/
def Error.message : Error → String
  | endOfBuffer => "Hit the end of buffer, expected more data"
  | unterminatedNumber =>
      "Found a varint that didn't terminate. Is the usize too big for this platform?"
  | invalidBool => "Found a bool that wasn't 0 or 1"
  | invalidOption => "Found an Option discriminant that wasn't 0 or 1"
  | invalidText => "Tried to parse invalid utf-8"
  | unknownVariant => "Serde Deserialization Error"

/-- Reading from the front of bytes. -/
abbrev Reader := StateT Bytes (Except Error)

/-- The next byte. -/
def byte : Reader UInt8
  | [] => .error .endOfBuffer
  | byte :: rest => .ok (byte, rest)

/-- The groups of a number, with a count of groups that is large enough for it. -/
def numberGroups : Nat → Nat → Bytes
  | 0, value => [UInt8.ofNat value]
  | groups + 1, value =>
      if value < 128 then [UInt8.ofNat value]
      else UInt8.ofNat (value % 128 + 128) :: numberGroups groups (value / 128)

/-- A number in groups of seven bits. -/
def number (value : Nat) : Bytes := numberGroups value value

/-- A number of at most so many groups, whose last possible one has a largest value. -/
def readGroups (largest : Nat) : Nat → Reader Nat
  | 0 => throw .unterminatedNumber
  | groups + 1 => do
      let group ← byte
      if group < 128 then
        if groups = 0 ∧ largest < group.toNat then throw .unterminatedNumber
        else return group.toNat
      else
        let higher ← readGroups largest groups
        return group.toNat - 128 + 128 * higher

/-- A number below `2 ^ 32`. -/
def readWord : Reader UInt32 := do
  return UInt32.ofNat (← readGroups 15 5)

/-- A number below `2 ^ 64`, which a length is. -/
def readLength : Reader Nat := readGroups 1 10

/-- An integer as a number: non-negative ones even, negative ones odd. -/
def zigzag (value : Int32) : Nat :=
  if 0 ≤ value.toInt then value.toInt.toNat * 2 else (-value.toInt).toNat * 2 - 1

/-- The integer of a number. -/
def unzigzag (value : Nat) : Int32 :=
  if value % 2 = 0 then Int32.ofNat (value / 2) else Int32.ofInt (-((value / 2 : Nat) : Int) - 1)

/-- A 32-bit integer. -/
def int32 (value : Int32) : Bytes := number (zigzag value)

/-- Reads a 32-bit integer. -/
def readInt32 : Reader Int32 := do
  return unzigzag (← readGroups 15 5)

/-- A truth value. -/
def bool (value : Bool) : Bytes := if value then [1] else [0]

/-- Reads a truth value. -/
def readBool : Reader Bool := do
  match ← byte with
  | 0 => return false
  | 1 => return true
  | _ => throw .invalidBool

/-- An optional value behind a mark. -/
def option {α : Type} (write : α → Bytes) : Option α → Bytes
  | none => [0]
  | some value => 1 :: write value

/-- Reads an optional value. -/
def readOption {α : Type} (read : Reader α) : Reader (Option α) := do
  match ← byte with
  | 0 => return none
  | 1 => return some (← read)
  | _ => throw .invalidOption

/-- A list behind its length. -/
def list {α : Type} (write : α → Bytes) (items : List α) : Bytes :=
  number items.length ++ items.flatMap write

/-- Reads a number of items. -/
def readItems {α : Type} (read : Reader α) : Nat → Reader (List α)
  | 0 => return []
  | count + 1 => do
      let item ← read
      let items ← readItems read count
      return item :: items

/-- Reads a list. -/
def readList {α : Type} (read : Reader α) : Reader (List α) := do
  readItems read (← readLength)

/-- A text as its length in bytes and its UTF-8 encoding. -/
def text (text : String) : Bytes :=
  number text.utf8ByteSize ++ text.toUTF8.toList

/-- Reads a number of bytes. -/
def readBytes (count : Nat) : Reader Bytes := fun bytes =>
  if count ≤ bytes.length then .ok (bytes.take count, bytes.drop count) else .error .endOfBuffer

/-- Reads a text. -/
def readText : Reader String := do
  let bytes ← readBytes (← readLength)
  match String.fromUTF8? ⟨bytes.toArray⟩ with
  | some text => return text
  | none => throw .invalidText

/-- The place of an item in a list of all items. -/
def index {α : Type} [DecidableEq α] (all : List α) (item : α) : Bytes :=
  number (all.idxOf item)

/-- Reads an item by its place in a list of all items. -/
def readIndex {α : Type} (all : List α) : Reader α := do
  match all[(← readWord).toNat]? with
  | some item => return item
  | none => throw .unknownVariant

end Binary

end ParametricGrammar
