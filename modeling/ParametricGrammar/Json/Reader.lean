import ParametricGrammar.Json.Value
/-!
# Reading JSON

A reader of JSON texts. Readers take the characters ahead and return those behind what they read.
Values recurse on a count that starts at more than the number of characters, so no text exhausts
it.
-/

namespace ParametricGrammar

namespace Json

/-- Whether a character is blank between JSON tokens. -/
def isBlank (char : Char) : Bool :=
  char = ' ' || char = '\t' || char = '\n' || char = '\r'

/-- A text without leading blanks. -/
def skipBlanks (text : List Char) : List Char :=
  text.dropWhile isBlank

/-- The code that a letter behind a backslash stands for. -/
def shortEscape? : Char → Option Nat
  | '"' => some 0x22
  | '\\' => some 0x5c
  | '/' => some 0x2f
  | 'b' => some 0x08
  | 'f' => some 0x0c
  | 'n' => some 0x0a
  | 'r' => some 0x0d
  | 't' => some 0x09
  | _ => none

/-- The codes of a string up to its closing quote, surrogates still apart. -/
def stringCodes? : List Char → Option (List Nat × List Char)
  | [] | ['\\'] => none
  | '"' :: rest => some ([], rest)
  | '\\' :: 'u' :: a :: b :: c :: d :: rest => do
      let code ← Numeral.natural? 16 [a, b, c, d]
      let (codes, rest) ← stringCodes? rest
      return (code :: codes, rest)
  | '\\' :: letter :: rest => do
      let code ← shortEscape? letter
      let (codes, rest) ← stringCodes? rest
      return (code :: codes, rest)
  | char :: rest =>
      if char.toNat < 0x20 then none
      else do
        let (codes, rest) ← stringCodes? rest
        return (char.toNat :: codes, rest)

/-- Whether a code is the first half of a surrogate pair. -/
def isHighSurrogate (code : Nat) : Bool := 0xd800 ≤ code && code ≤ 0xdbff

/-- Whether a code is the second half of a surrogate pair. -/
def isLowSurrogate (code : Nat) : Bool := 0xdc00 ≤ code && code ≤ 0xdfff

/-- The characters of codes with surrogate pairs joined, unless half of a pair stands alone. -/
def joinSurrogates? : List Nat → Option (List Char)
  | [] => some []
  | [code] =>
      if isHighSurrogate code || isLowSurrogate code then none else some [Char.ofNat code]
  | code :: next :: rest =>
      if isHighSurrogate code then
        if isLowSurrogate next then
          (joinSurrogates? rest).map
            (Char.ofNat (0x10000 + (code - 0xd800) * 0x400 + (next - 0xdc00)) :: ·)
        else none
      else if isLowSurrogate code then none
      else (joinSurrogates? (next :: rest)).map (Char.ofNat code :: ·)

/-- The text of a string behind its opening quote, none for half of a surrogate pair. -/
def string? (text : List Char) : Option (Option String × List Char) := do
  let (codes, rest) ← stringCodes? text
  return ((joinSurrogates? codes).map String.ofList, rest)

/-- Whether a character is a decimal digit. -/
def isDigit (char : Char) : Bool := '0' ≤ char && char ≤ '9'

/-- One or more digits. -/
def digits? (text : List Char) : Option (List Char × List Char) :=
  match text.span isDigit with
  | ([], _) => none
  | parts => some parts

/-- The digits before the fraction of a number, which start with a zero only if it is the only
one. -/
def wholePart? (text : List Char) : Option (List Char × List Char) :=
  match digits? text with
  | some ('0' :: _ :: _, _) | none => none
  | parts => parts

/-- The text behind a fraction, and whether there is one. -/
def skipFraction? : List Char → Option (Bool × List Char)
  | '.' :: text => (digits? text).map fun parts => (true, parts.2)
  | text => some (false, text)

/-- The text behind the sign of an exponent. -/
def skipSign : List Char → List Char
  | '+' :: text | '-' :: text => text
  | text => text

/-- The text behind an exponent, and whether there is one. -/
def skipExponent? : List Char → Option (Bool × List Char)
  | 'e' :: text | 'E' :: text => (digits? (skipSign text)).map fun parts => (true, parts.2)
  | text => some (false, text)

/-- A number without its sign. -/
def unsigned? (negative : Bool) (text : List Char) : Option (Json × List Char) := do
  let (whole, text) ← wholePart? text
  let (fraction, text) ← skipFraction? text
  let (exponent, text) ← skipExponent? text
  let value ← Numeral.natural? 10 whole
  if fraction || exponent || (negative && value = 0) then return (.other, text)
  else return (.integer (if negative then -value else value), text)

/-- A number. -/
def number? : List Char → Option (Json × List Char)
  | '-' :: text => unsigned? true text
  | text => unsigned? false text

/-- An object, unless one of its keys is no text. -/
def objectOf (fields : List (Option String × Json)) : Json :=
  match fields.mapM fun (key, value) => key.map (·, value) with
  | some fields => .object fields
  | none => .other

mutual

/-- A value. -/
def value? : Nat → List Char → Option (Json × List Char)
  | 0, _ => none
  | fuel + 1, text =>
      match skipBlanks text with
      | 'n' :: 'u' :: 'l' :: 'l' :: rest => some (.null, rest)
      | 't' :: 'r' :: 'u' :: 'e' :: rest => some (.bool true, rest)
      | 'f' :: 'a' :: 'l' :: 's' :: 'e' :: rest => some (.bool false, rest)
      | '"' :: rest => do
          let (text, rest) ← string? rest
          return ((text.map .string).getD .other, rest)
      | '[' :: rest =>
          match skipBlanks rest with
          | ']' :: rest => some (.array [], rest)
          | rest => do
              let (items, rest) ← items? fuel rest
              return (.array items, rest)
      | '{' :: rest =>
          match skipBlanks rest with
          | '}' :: rest => some (.object [], rest)
          | rest => do
              let (fields, rest) ← fields? fuel rest
              return (objectOf fields, rest)
      | text => number? text

/-- The items of an array up to its closing bracket. -/
def items? : Nat → List Char → Option (List Json × List Char)
  | 0, _ => none
  | fuel + 1, text => do
      let (item, rest) ← value? fuel text
      match skipBlanks rest with
      | ']' :: rest => return ([item], rest)
      | ',' :: rest =>
          let (items, rest) ← items? fuel rest
          return (item :: items, rest)
      | _ => none

/-- The fields of an object up to its closing brace. -/
def fields? : Nat → List Char → Option (List (Option String × Json) × List Char)
  | 0, _ => none
  | fuel + 1, text =>
      match skipBlanks text with
      | '"' :: rest => do
          let (key, rest) ← string? rest
          match skipBlanks rest with
          | ':' :: rest =>
              let (value, rest) ← value? fuel rest
              match skipBlanks rest with
              | '}' :: rest => return ([(key, value)], rest)
              | ',' :: rest =>
                  let (fields, rest) ← fields? fuel rest
                  return ((key, value) :: fields, rest)
              | _ => none
          | _ => none
      | _ => none

end

/-- The value of a whole text. -/
def ofText? (text : String) : Option Json := do
  let (value, rest) ← value? (text.toList.length + 1) text.toList
  if (skipBlanks rest).isEmpty then return value else none

end Json

end ParametricGrammar
