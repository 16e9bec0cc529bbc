/-!
# Numerals

Decimal and hexadecimal spelling of numbers, and the readers that accept exactly one or more digits
of the base. Readers work on characters and know no sign.
-/

namespace ParametricGrammar

namespace Numeral

/-- Decimal digits of a natural number, without leading zeros. -/
def decimal (value : Nat) : String :=
  String.ofList (Nat.toDigits 10 value)

/-- Decimal digits of an integer, after a minus sign when it is negative. -/
def signed : Int → String
  | .ofNat value => decimal value
  | .negSucc value => "-" ++ decimal (value + 1)

/-- Decimal digits of an integer, always after its sign. -/
def explicitlySigned (value : Int) : String :=
  if value < 0 then signed value else "+" ++ signed value

/-- Pads digits with leading zeros up to a width. -/
def zeroPadded (width : Nat) (digits : List Char) : String :=
  String.ofList (List.replicate (width - digits.length) '0' ++ digits)

/-- Lower-case hexadecimal digits, padded with zeros to a width. -/
def lowerHex (width value : Nat) : String :=
  zeroPadded width (Nat.toDigits 16 value)

/-- Upper-case hexadecimal digits, padded with zeros to a width. -/
def upperHex (width value : Nat) : String :=
  zeroPadded width ((Nat.toDigits 16 value).map Char.toUpper)

/-- The value of a hexadecimal digit of either case. -/
def digit? (digit : Char) : Option Nat :=
  if '0' ≤ digit ∧ digit ≤ '9' then some (digit.toNat - '0'.toNat)
  else if 'a' ≤ digit ∧ digit ≤ 'f' then some (digit.toNat - 'a'.toNat + 10)
  else if 'A' ≤ digit ∧ digit ≤ 'F' then some (digit.toNat - 'A'.toNat + 10)
  else none

/-- Extends a value by further digits of the base. -/
def extend? (base : Nat) : Nat → List Char → Option Nat
  | value, [] => some value
  | value, digit :: rest =>
      match digit? digit with
      | none => none
      | some added => if added < base then extend? base (value * base + added) rest else none

/-- Reads one or more digits of the base. -/
def natural? (base : Nat) : List Char → Option Nat
  | [] => none
  | digits => extend? base 0 digits

/-- Reads decimal digits that may follow one minus sign. -/
def integer? : List Char → Option Int
  | '-' :: digits => (natural? 10 digits).map fun value => -(value : Int)
  | digits => (natural? 10 digits).map Int.ofNat

/-- Reads a decimal numeral below `2 ^ 32`. -/
def word? (text : List Char) : Option UInt32 :=
  match natural? 10 text with
  | some value => if value < UInt32.size then some (UInt32.ofNat value) else none
  | none => none

/-- The 32-bit integer of a value in range. -/
def int32? (value : Int) : Option Int32 :=
  if -2147483648 ≤ value ∧ value ≤ 2147483647 then some (Int32.ofInt value) else none

end Numeral

/-- Concatenates texts with a separator between neighbours. -/
def joined (separator : String) : List String → String
  | [] => ""
  | [text] => text
  | text :: rest => text ++ separator ++ joined separator rest

/-- A text in braces. -/
def braced (text : String) : String :=
  .singleton '{' ++ text ++ .singleton '}'

@[simp] theorem toList_braced (text : String) :
    (braced text).toList = '{' :: (text.toList ++ ['}']) := by
  simp [braced]

end ParametricGrammar
