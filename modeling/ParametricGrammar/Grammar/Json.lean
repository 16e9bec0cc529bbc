import ParametricGrammar.Grammar
import ParametricGrammar.Json.Reader
/-!
# Grammars as JSON

Grammars are objects of productions. A variant with content is an object with one field; one
without is a string. Reading also takes records as arrays of their fields in order, leaves fields
unknown to a record aside, and allows a fixed number of nested arrays and objects.
-/

namespace ParametricGrammar

/-! ### Writing -/

/-- A value as JSON. -/
def Value.toJson : Value → Json
  | .int value => .tagged "int" (.integer value.toInt)
  | .context value => .tagged "context" (.string value.text)
  | .chomping value => .tagged "chomping" (.string value.text)

/-- Parameters as JSON. -/
def Parameters.toJson (parameters : Parameters) : Json :=
  .object [
    ("n", .ofOption (fun value => .integer value.toInt) parameters.n),
    ("m", .ofOption (fun value => .integer value.toInt) parameters.m),
    ("c", .ofOption (fun context => .string context.text) parameters.c),
    ("t", .ofOption (fun chomping => .string chomping.text) parameters.t)]

/-- A binding as JSON. -/
def Binding.toJson : Binding → Json
  | .literal value => .tagged "value" value.toJson
  | .context => .string "context"
  | .chomping => .string "chomping"
  | .indent n m offset =>
      .tagged "indent"
        (.object [("n", .bool n), ("m", .bool m), ("offset", .integer offset.toInt)])
  | .inFlow => .string "in-flow"

/-- A bound as JSON. -/
def Bound.toJson : Bound → Json
  | .fixed count => .tagged "fixed" (.integer count.toNat)
  | .computed binding => .tagged "param" binding.toJson

/-- A range as JSON. -/
def CodeRange.toJson (range : CodeRange) : Json :=
  .array [.integer range.first.toNat, .integer range.last.toNat]

namespace Node

mutual

/-- An expression as JSON. -/
def toJson : Node → Json
  | .empty => .string "empty"
  | .startOfLine => .string "start-of-line"
  | .endOfInput => .string "end-of-input"
  | .literal text => .tagged "string" (.string text)
  | .chars set => .tagged "char-set" (.array (set.ranges.map CodeRange.toJson))
  | .reference name arguments =>
      .tagged "ref"
        (.object [("name", .string name), ("args", .array (arguments.map Binding.toJson))])
  | .sequence children => .tagged "sequence" (.array (allToJson children))
  | .first children => .tagged "first" (.array (allToJson children))
  | .repeated child minimum maximum =>
      .tagged "repeat"
        (.object [("child", toJson child), ("min", minimum.toJson),
          ("max", .ofOption Bound.toJson maximum)])
  | .lookahead child positive =>
      .tagged "lookahead" (.object [("child", toJson child), ("positive", .bool positive)])
  | .lookbehind child => .tagged "lookbehind" (toJson child)
  | .detectIndentation minimum child =>
      .tagged "detect-indentation" (.object [("min", minimum.toJson), ("child", toJson child)])
  | .cases arms => .tagged "context" (.array (armsToJson arms))

/-- Expressions as JSON. -/
def allToJson : List Node → List Json
  | [] => []
  | node :: rest => toJson node :: allToJson rest

/-- Cases as JSON. -/
def armsToJson : List (Parameters × Node) → List Json
  | [] => []
  | (pattern, body) :: rest =>
      .object [("pattern", pattern.toJson), ("body", toJson body)] :: armsToJson rest

end

end Node

/-- A production as JSON. -/
def Production.toJson (production : Production) : Json :=
  .object [
    ("number", .ofOption (fun number => .integer number.toNat) production.number),
    ("parameters", .array (production.formals.map fun formal => .string formal.text)),
    ("body", production.body.toJson)]

/-- A grammar as JSON. -/
def Grammar.toJson (grammar : Grammar) : Json :=
  .object (grammar.entries.map fun (name, production) => (name, production.toJson))

/-- A grammar as JSON text. -/
def Grammar.jsonText (grammar : Grammar) : String := grammar.toJson.text

/-! ### Reading -/

namespace Json

/-- How many arrays and objects may be nested in the text of a grammar. -/
def depthLimit : Nat := 127

/-- The only value of a key, none inside if there is no such key. -/
def field? (key : String) (fields : List (String × Json)) : Option (Option Json) :=
  match fields.filter fun field => field.1 = key with
  | [] => some none
  | [field] => some (some field.2)
  | _ => none

/-- What a record holds for a field. -/
inductive Field where
  /-- The field has a value. -/
  | given (value : Json)
  /-- An object has no such field. -/
  | absent
  /-- An array is too short to have the field. -/
  | cut

/-- The fields of a record, written as an object or as an array of its fields in order. -/
def record? (keys : List String) : Json → Option (List Field)
  | .object fields =>
      keys.mapM fun key => (field? key fields).map fun
        | some value => .given value
        | none => .absent
  | .array items =>
      if items.length ≤ keys.length then
        some (items.map .given ++ List.replicate (keys.length - items.length) .cut)
      else none
  | _ => none

namespace Field

/-- The value of a field that has to be there. -/
def required? {α : Type} (read : Json → Option α) : Field → Option α
  | .given value => read value
  | .absent | .cut => none

/-- The value of a field that has a default. -/
def defaulted? {α : Type} (read : Json → Option α) (fallback : α) : Field → Option α
  | .given value => read value
  | .absent | .cut => some fallback

/-- The value of a field that an object may leave out, null for none. -/
def optional? {α : Type} (read : Json → Option α) : Field → Option (Option α)
  | .given .null | .absent => some none
  | .given value => (read value).map some
  | .cut => none

end Field

/-- A value that null stands in for. -/
def nullable? {α : Type} (read : Json → Option α) : Json → Option (Option α)
  | .null => some none
  | value => (read value).map some

/-- A text. -/
def asText? : Json → Option String
  | .string text => some text
  | _ => none

/-- Whether a value is null. -/
def isNull : Json → Bool
  | .null => true
  | _ => false

/-- A truth value. -/
def asBool? : Json → Option Bool
  | .bool value => some value
  | _ => none

/-- A 32-bit integer. -/
def asInt32? : Json → Option Int32
  | .integer value => Numeral.int32? value
  | _ => none

/-- A number below `2 ^ 32`. -/
def asWord? : Json → Option UInt32
  | .integer value =>
      if 0 ≤ value ∧ value < UInt32.size then some (UInt32.ofNat value.toNat) else none
  | _ => none

/-- A name without content, as a string or as an object whose only field is null. -/
def asName? : Nat → Json → Option String
  | _, .string name => some name
  | _ + 1, .object [(name, .null)] => some name
  | _, _ => none

/-- The items of an array. -/
def asArray? {α : Type} (read : Nat → Json → Option α) : Nat → Json → Option (List α)
  | depth + 1, .array items => items.mapM (read depth)
  | _, _ => none

end Json

/-- The formal that JSON denotes. -/
def Formal.ofJson? (depth : Nat) (json : Json) : Option Formal :=
  (json.asName? depth).bind Formal.ofText?

/-- The context that JSON denotes. -/
def Context.ofJson? (depth : Nat) (json : Json) : Option Context :=
  (json.asName? depth).bind Context.ofText?

/-- The chomping behaviour that JSON denotes. -/
def Chomping.ofJson? (depth : Nat) (json : Json) : Option Chomping :=
  (json.asName? depth).bind Chomping.ofText?

/-- The value that JSON denotes. -/
def Value.ofJson? : Nat → Json → Option Value
  | depth + 1, .object [(tag, json)] =>
      match tag with
      | "int" => json.asInt32?.map .int
      | "context" => (Context.ofJson? depth json).map .context
      | "chomping" => (Chomping.ofJson? depth json).map .chomping
      | _ => none
  | _, _ => none

/-- The parameters that JSON denotes. -/
def Parameters.ofJson? : Nat → Json → Option Parameters
  | depth + 1, json =>
      match json.record? ["n", "m", "c", "t"] with
      | some [n, m, c, t] => do
          return {
            n := ← n.defaulted? (Json.nullable? Json.asInt32?) none
            m := ← m.defaulted? (Json.nullable? Json.asInt32?) none
            c := ← c.defaulted? (Json.nullable? (Context.ofJson? depth)) none
            t := ← t.defaulted? (Json.nullable? (Chomping.ofJson? depth)) none }
      | _ => none
  | 0, _ => none

/-- The binding that JSON denotes. -/
def Binding.ofJson? (depth : Nat) (json : Json) : Option Binding :=
  match json.asName? depth, depth, json with
  | some "context", _, _ => some .context
  | some "chomping", _, _ => some .chomping
  | some "in-flow", _, _ => some .inFlow
  | _, depth + 1, .object [("value", json)] => (Value.ofJson? depth json).map .literal
  | _, _ + 2, .object [("indent", json)] =>
      match json.record? ["n", "m", "offset"] with
      | some [n, m, offset] => do
          return .indent (← n.required? Json.asBool?) (← m.required? Json.asBool?)
            (← offset.required? Json.asInt32?)
      | _ => none
  | _, _, _ => none

/-- The bound that JSON denotes. -/
def Bound.ofJson? : Nat → Json → Option Bound
  | depth + 1, .object [(tag, json)] =>
      match tag with
      | "fixed" => json.asWord?.map .fixed
      | "param" => (Binding.ofJson? depth json).map .computed
      | _ => none
  | _, _ => none

/-- The range that JSON denotes. -/
def CodeRange.ofJson? : Nat → Json → Option CodeRange
  | _ + 1, .array [first, last] => do
      return ⟨← first.asWord?, ← last.asWord?⟩
  | _, _ => none

namespace Node

/-- The expression without content that has a name. -/
def ofName? : String → Option Node
  | "empty" => some .empty
  | "start-of-line" => some .startOfLine
  | "end-of-input" => some .endOfInput
  | _ => none

/-- The reference that JSON denotes. -/
def referenceOfJson? : Nat → Json → Option Node
  | depth + 1, json =>
      match json.record? ["name", "args"] with
      | some [name, arguments] => do
          return .reference (← name.required? Json.asText?)
            (← arguments.required? (Json.asArray? Binding.ofJson? depth))
      | _ => none
  | 0, _ => none

mutual

/-- The expression that JSON denotes. -/
def ofJson? : Nat → Json → Option Node
  | _, .string name => ofName? name
  | depth + 1, .object [(tag, json)] =>
      match tag with
      | "string" => json.asText?.map .literal
      | "char-set" =>
          (Json.asArray? CodeRange.ofJson? depth json).map fun ranges => .chars ⟨ranges⟩
      | "ref" => referenceOfJson? depth json
      | "sequence" =>
          match depth, json with
          | depth + 1, .array items => (items.mapM (ofJson? depth)).map .sequence
          | _, _ => none
      | "first" =>
          match depth, json with
          | depth + 1, .array items => (items.mapM (ofJson? depth)).map .first
          | _, _ => none
      | "repeat" =>
          match depth, json.record? ["child", "min", "max"] with
          | depth + 1, some [child, minimum, maximum] => do
              return .repeated (← child.required? (ofJson? depth))
                (← minimum.required? (Bound.ofJson? depth))
                (← maximum.optional? (Bound.ofJson? depth))
          | _, _ => none
      | "lookahead" =>
          match depth, json.record? ["child", "positive"] with
          | depth + 1, some [child, positive] => do
              return .lookahead (← child.required? (ofJson? depth))
                (← positive.required? Json.asBool?)
          | _, _ => none
      | "lookbehind" => (ofJson? depth json).map .lookbehind
      | "detect-indentation" =>
          match depth, json.record? ["min", "child"] with
          | depth + 1, some [minimum, child] => do
              return .detectIndentation (← minimum.required? (Binding.ofJson? depth))
                (← child.required? (ofJson? depth))
          | _, _ => none
      | "context" =>
          match depth, json with
          | depth + 1, .array items => (items.mapM (armOfJson? depth)).map .cases
          | _, _ => none
      | name => if json.isNull then ofName? name else none
  | _, _ => none

/-- The case that JSON denotes. -/
def armOfJson? : Nat → Json → Option (Parameters × Node)
  | depth + 1, json =>
      match json.record? ["pattern", "body"] with
      | some [pattern, body] => do
          let pattern ← pattern.required? (Parameters.ofJson? depth)
          let body ← body.required? (ofJson? depth)
          return (pattern, body)
      | _ => none
  | 0, _ => none

end

end Node

/-- The production that JSON denotes. -/
def Production.ofJson? : Nat → Json → Option Production
  | depth + 1, json =>
      match json.record? ["number", "parameters", "body"] with
      | some [number, formals, body] => do
          return {
            number := ← number.defaulted? (Json.nullable? Json.asWord?) none
            formals := ← formals.defaulted? (Json.asArray? Formal.ofJson? depth) []
            body := ← body.required? (Node.ofJson? depth) }
      | _ => none
  | 0, _ => none

/-- The grammar that JSON denotes, with a budget of nested arrays and objects. -/
def Grammar.ofJson? : Nat → Json → Option Grammar
  | depth + 1, .object fields =>
      (fields.mapM fun field =>
        (Production.ofJson? depth field.2).map fun production => (field.1, production)).map .ofList
  | _, _ => none

/-- The grammar that a JSON text denotes. -/
def Grammar.ofJsonText? (text : String) : Option Grammar :=
  (Json.ofText? text).bind (Grammar.ofJson? Json.depthLimit)

end ParametricGrammar
