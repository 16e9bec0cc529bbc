/-!
# Command-line arguments

Arguments are read against the options that a program knows, whatever it does. An option may be
spelled `--name value`, `--name=value`, `-nvalue`, `-n=value` or `-n value`, and flags of one letter
may share a dash. A value of its own may be a lone dash but starts with no dash otherwise; behind
`--` all arguments are operands.
-/

namespace ParametricGrammar

namespace Terminal

/-- How an option is used. -/
inductive Usage where
  /-- Given at most once, without a value. -/
  | flag
  /-- Given any number of times, without a value. -/
  | counted
  /-- Given at most once, with a value. -/
  | single
  /-- Given any number of times, with a value. -/
  | many
deriving DecidableEq

/-- An option that a command knows. -/
structure Known where
  name : String
  /-- Whether the name itself is an option behind two dashes. -/
  long : Bool := true
  letter : Option Char := none
  usage : Usage

namespace Known

/-- Whether the option has a value. -/
def hasValue (option : Known) : Bool :=
  option.usage = .single || option.usage = .many

/-- Whether the option may be given again. -/
def repeats (option : Known) : Bool :=
  option.usage = .counted || option.usage = .many

end Known

/-- Arguments in the order given: options with their values, and operands. -/
structure Given where
  options : List (String × String) := []
  operands : List String := []

namespace Given

/-- The number of times that an option is given. -/
def count (given : Given) (name : String) : Nat :=
  (given.options.filter fun option => option.1 = name).length

/-- Whether an option is given. -/
def has (given : Given) (name : String) : Bool :=
  given.count name > 0

/-- The values of an option. -/
def values (given : Given) (name : String) : List String :=
  (given.options.filter fun option => option.1 = name).map Prod.snd

/-- The value of an option. -/
def value? (given : Given) (name : String) : Option String :=
  given.options.lookup name

/-- Adds an option, unless it is given already and may not be given again. -/
def add? (given : Given) (option : Known) (value : String) : Option Given :=
  if given.has option.name && !option.repeats then none
  else some { given with options := given.options ++ [(option.name, value)] }

/-- Adds an operand. -/
def addOperand (given : Given) (operand : String) : Given :=
  { given with operands := given.operands ++ [operand] }

end Given

/-- What an argument with a dash leaves to be done. -/
inductive Pending where
  | nothing (given : Given)
  /-- The next argument is the value of an option. -/
  | value (option : Known) (given : Given)

/-- Splits characters at the first equals sign. -/
def splitEquals (text : List Char) : List Char × Option (List Char) :=
  match text.span (· ≠ '=') with
  | (name, '=' :: value) => (name, some value)
  | (name, _) => (name, none)

/-- Reads an argument behind its two dashes. -/
def readLong? (known : List Known) (given : Given) (text : List Char) : Option Pending := do
  let (name, value) := splitEquals text
  let option ← known.find? fun option => option.long && option.name.toList = name
  match option.hasValue, value with
  | true, some value => (given.add? option (String.ofList value)).map .nothing
  | true, none => some (.value option given)
  | false, some _ => none
  | false, none => (given.add? option "").map .nothing

/-- Reads the letters of an argument behind its single dash. -/
def readLetters? (known : List Known) (given : Given) : List Char → Option Pending
  | [] => some (.nothing given)
  | letter :: rest => do
      let option ← known.find? fun option => option.letter = some letter
      if option.hasValue then
        match rest with
        | [] => some (.value option given)
        | '=' :: value => (given.add? option (String.ofList value)).map .nothing
        | value => (given.add? option (String.ofList value)).map .nothing
      else readLetters? known (← given.add? option "") rest

/-- Reads arguments after those given so far. -/
def read? (known : List Known) : Pending → List String → Option Given
  | .nothing given, [] => some given
  | .value _ _, [] => none
  | .value option given, argument :: rest =>
      match argument.toList with
      | '-' :: _ :: _ => none
      | _ => do read? known (.nothing (← given.add? option argument)) rest
  | .nothing given, argument :: rest =>
      match argument.toList with
      | ['-', '-'] => some (rest.foldl Given.addOperand given)
      | '-' :: '-' :: text => do read? known (← readLong? known given text) rest
      | '-' :: letter :: letters => do
          read? known (← readLetters? known given (letter :: letters)) rest
      | _ => read? known (.nothing (given.addOperand argument)) rest

end Terminal

end ParametricGrammar
