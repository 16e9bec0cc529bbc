import ParametricGrammar.Numeral
import ParametricGrammar.Terminal.Arguments
/-!
# Commands

The four commands with their options, read from arguments. `parse` and `trace` know the options of
each other, and leave those that do not concern them aside.
-/

namespace ParametricGrammar

namespace Command

open Terminal

/-- Which grammar texts to use, and how to layer them. -/
structure Selection where
  /-- The path of the base. -/
  base : Option String := none
  /-- The paths of fragments laid over it, in order. -/
  patches : List String := []
  /-- Whether the grammar of the dialect is below them all. -/
  dialect : Bool := false

/-- What to run on which text. -/
structure Task where
  selection : Selection
  /-- The path of the text. -/
  path : Option String
  /-- The text itself, which comes before a path. -/
  text : Option String
  root : Option String
  cached : Bool
  limit : Nat

/-- How parse trees are shown. -/
structure Display where
  spans : Bool
  parameters : Bool
  colours : Bool

/-- A command with its options. -/
inductive Request where
  /-- Compile a grammar and report undefined references. -/
  | check (selection : Selection) (strict colours : Bool)
  /-- Print a grammar. -/
  | dump (selection : Selection) (json colours : Bool)
  /-- Print the tree of a text. -/
  | parse (task : Task) (display : Display) (json : Bool)
  /-- Print the events of a run and then the tree. -/
  | trace (task : Task) (display : Display) (verbosity : Nat) (tree : Bool)

/-- The options that select a grammar. -/
def selectionOptions : List Known :=
  [{ name := "patch", letter := some 'p', usage := .many }, { name := "meta", usage := .flag },
    { name := "color", usage := .single }]

/-- The options of `parse` and `trace`. -/
def taskOptions : List Known :=
  selectionOptions ++
    [{ name := "source", letter := some 's', usage := .single },
      { name := "root", letter := some 'r', usage := .single },
      { name := "no-cache", usage := .flag },
      { name := "recursion-limit", usage := .single },
      { name := "spans", usage := .flag },
      { name := "params", usage := .flag },
      { name := "json", usage := .flag },
      { name := "verbose", long := false, letter := some 'v', usage := .counted },
      { name := "no-result", usage := .flag }]

/-- A path, which is not empty. -/
def path? (text : String) : Option String :=
  if text.isEmpty then none else some text

/-- An optional path. -/
def optionalPath? : Option String → Option (Option String)
  | none => some none
  | some text => (path? text).map some

/-- Whether output has colours; it has none unless they are asked for. -/
def colours? (given : Given) : Option Bool :=
  match given.value? "color" with
  | none | some "auto" | some "never" => some false
  | some "always" => some true
  | some _ => none

/-- A number of nested calls, with or without a sign. -/
def limit? (text : String) : Option Nat := do
  let value ← match text.toList with
    | '+' :: digits => (Numeral.natural? 10 digits).map Int.ofNat
    | digits => Numeral.integer? digits
  if 0 ≤ value ∧ value < 0x100000000 then some value.toNat else none

/-- The selection with a base. -/
def selection? (given : Given) (base : Option String) : Option Selection := do
  return {
    base := ← optionalPath? base
    patches := ← (given.values "patch").mapM path?
    dialect := given.has "meta" }

/-- The grammar and the text that operands name. Over the grammar of the dialect, a single operand
is the text. -/
def operands? (given : Given) : Option (Option String × Option String) :=
  match given.operands with
  | [] => some (none, none)
  | [only] => if given.has "meta" then some (none, some only) else some (some only, none)
  | [grammar, text] => some (some grammar, some text)
  | _ => none

/-- What to run on which text. -/
def task? (given : Given) : Option Task := do
  let (base, path) ← operands? given
  let limit ← match given.value? "recursion-limit" with
    | none => some 1024
    | some text => limit? text
  return {
    selection := ← selection? given base
    path := ← optionalPath? path
    text := given.value? "source"
    root := given.value? "root"
    cached := !given.has "no-cache"
    limit := limit }

/-- How trees are shown. -/
def display? (given : Given) : Option Display := do
  return {
    spans := given.has "spans"
    parameters := given.has "params"
    colours := ← colours? given }

/-- The only operand, if there is one. -/
def operand? (given : Given) : Option (Option String) :=
  match given.operands with
  | [] => some none
  | [only] => some (some only)
  | _ => none

/-- Whether grammars are printed as JSON. -/
def format? (given : Given) : Option Bool :=
  match given.value? "format" with
  | none | some "bnf" => some false
  | some "json" => some true
  | some _ => none

/-- The request that arguments make, if they make one. -/
def request? : List String → Option Request
  | "check" :: arguments => do
      let known := { name := "strict", usage := .flag } :: selectionOptions
      let given ← read? known (.nothing {}) arguments
      let selection ← selection? given (← operand? given)
      return .check selection (given.has "strict") (← colours? given)
  | "dump" :: arguments => do
      let known := { name := "format", usage := .single } :: selectionOptions
      let given ← read? known (.nothing {}) arguments
      let selection ← selection? given (← operand? given)
      return .dump selection (← format? given) (← colours? given)
  | "parse" :: arguments => do
      let given ← read? taskOptions (.nothing {}) arguments
      return .parse (← task? given) (← display? given) (given.has "json")
  | "trace" :: arguments => do
      let given ← read? taskOptions (.nothing {}) arguments
      return .trace (← task? given) (← display? given) (given.count "verbose")
        (!given.has "no-result")
  | _ => none

end Command

end ParametricGrammar
