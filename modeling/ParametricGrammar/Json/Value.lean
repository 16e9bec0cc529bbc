import ParametricGrammar.Numeral
/-!
# JSON values

JSON values as grammars and trees use them, and their text with two spaces of indentation for each
level. All numbers that are written are integers.
-/

namespace ParametricGrammar

/-- A JSON value. -/
inductive Json where
  | null
  | bool (value : Bool)
  | integer (value : Int)
  | string (value : String)
  | array (items : List Json)
  | object (fields : List (String × Json))
  /-- A well-formed text that is none of the above: a number with a fraction, an exponent or a
  negative zero, a string with half of a surrogate pair, or an object with such a key. -/
  | other

namespace Json

/-- A character inside a JSON string. -/
def escapeChar (char : Char) : String :=
  if char = '"' then "\\\""
  else if char = '\\' then "\\\\"
  else if char = '\x08' then "\\b"
  else if char = '\x0c' then "\\f"
  else if char = '\n' then "\\n"
  else if char = '\r' then "\\r"
  else if char = '\t' then "\\t"
  else if char.toNat < 0x20 then "\\u" ++ Numeral.lowerHex 4 char.toNat
  else String.singleton char

/-- A JSON string. -/
def quote (text : String) : String :=
  "\"" ++ String.join (text.toList.map escapeChar) ++ "\""

/-- A new line at a level of nesting. -/
def newLine (level : Nat) : String :=
  "\n" ++ String.join (List.replicate level "  ")

/-- Items between brackets, one to a line. -/
def enclosed (left right : Char) (level : Nat) : List String → String
  | [] => .singleton left ++ .singleton right
  | items =>
      .singleton left ++ newLine (level + 1) ++ joined ("," ++ newLine (level + 1)) items ++
        newLine level ++ .singleton right

mutual

/-- The text of a value at a level of nesting. -/
def textAt (level : Nat) : Json → String
  | .null | .other => "null"
  | .bool value => if value then "true" else "false"
  | .integer value => Numeral.signed value
  | .string value => quote value
  | .array items => enclosed '[' ']' level (itemTexts (level + 1) items)
  | .object fields => enclosed '{' '}' level (fieldTexts (level + 1) fields)

/-- The texts of values at a level of nesting. -/
def itemTexts (level : Nat) : List Json → List String
  | [] => []
  | item :: rest => textAt level item :: itemTexts level rest

/-- The texts of fields at a level of nesting. -/
def fieldTexts (level : Nat) : List (String × Json) → List String
  | [] => []
  | (key, value) :: rest => (quote key ++ ": " ++ textAt level value) :: fieldTexts level rest

end

/-- The text of a value. -/
def text (value : Json) : String := textAt 0 value

/-- An optional value, null for none. -/
def ofOption {α : Type} (encode : α → Json) : Option α → Json
  | some value => encode value
  | none => .null

/-- An object with one field. -/
def tagged (tag : String) (value : Json) : Json := .object [(tag, value)]

end Json

end ParametricGrammar
