import ParametricGrammar.Assembly
import ParametricGrammar.Bnf.Printer
import ParametricGrammar.Command.Options
import ParametricGrammar.Diagnostic.Report
import ParametricGrammar.Trace
import ParametricGrammar.Tree.Json
/-!
# Running commands

A command reads the texts that it needs one after the other and ends with an exit code and output.
How texts are read is left open, so that commands run on files as well as on values.
-/

namespace ParametricGrammar

namespace Command

/-- Why a text could not be read. -/
inductive ReadError where
  /-- There is no such file. -/
  | missing
  /-- The path names a directory. -/
  | directory
  /-- The path treats a file as a directory. -/
  | notDirectory
  /-- The bytes are not UTF-8. -/
  | notText
  /-- Another reason, in words. -/
  | other (reason : String)

/-- The wording of a read error. -/
def ReadError.message : ReadError → String
  | missing => "No such file or directory (os error 2)"
  | directory => "Is a directory (os error 21)"
  | notDirectory => "Not a directory (os error 20)"
  | notText => "stream did not contain valid UTF-8"
  | other reason => reason

/-- What a command ends with. -/
structure Result where
  code : Nat := 0
  output : String := ""
  errors : String := ""
deriving DecidableEq

/-- The end of a command that fails with a message. -/
def Result.failed (message : String) : Result := { code := 1, errors := message ++ "\n" }

/-- The path that stands for the standard input. -/
def standardInput : String := "-"

/-- Whether a selection selects nothing. -/
def Selection.isEmpty (selection : Selection) : Bool :=
  !selection.dialect && selection.base.isNone && selection.patches.isEmpty

section

variable {m : Type → Type} [Monad m] (read : String → m (Except ReadError String))

/-- Reads the text at a path. -/
def readText (path : String) : ExceptT Result m String := do
  match ← read path with
  | .ok text => return text
  | .error error =>
      let message :=
        if path = standardInput then "failed to read stdin: " ++ error.message
        else "failed to read '" ++ path ++ "': " ++ error.message
      throw (.failed ("error: " ++ message))

/-- Compiles the grammar text at a path. -/
def loadFragment (colours : Bool) (path : String) : ExceptT Result m Grammar := do
  let text ← readText read path
  match Bnf.compile text with
  | .ok grammar => return grammar
  | .error error =>
      let name := if path = standardInput then "<stdin>" else path
      throw (.failed
        (Diagnostic.report { path := some name, colours := colours } (some text.toList) error))

/-- Compiles the texts of a selection and lays them over each other. -/
def loadGrammar (selection : Selection) (colours : Bool) : ExceptT Result m Grammar := do
  if selection.isEmpty then
    throw (.failed "error: grammar is required: use a positional GRAMMAR or --meta")
  let start := if selection.dialect then Bnf.Dialect.grammar else .empty
  let fragments ← (selection.base.toList ++ selection.patches).mapM (loadFragment read colours)
  return fragments.foldl Grammar.merge start

/-- The root of a run: the production asked for, or the first one. -/
def rootOf (grammar : Grammar) : Option String → Except String String
  | some name =>
      if grammar.contains name then .ok name
      else .error ("grammar has no production `" ++ name ++ "`")
  | none =>
      match grammar.names with
      | name :: _ => .ok name
      | [] => .error "grammar has no productions"

/-- The text of a run. -/
def loadText (task : Task) : ExceptT Result m String := do
  match task.text, task.path with
  | some text, _ => return text
  | none, some path => readText read path
  | none, none =>
      throw (.failed "error: input is required: use a positional SOURCE or -s/--source")

/-- What a run needs: its setting, root and text. -/
def prepare (task : Task) (colours : Bool) : ExceptT Result m (Setting × String × List Char) := do
  let grammar ← loadGrammar read task.selection colours
  match rootOf grammar task.root with
  | .error message => throw (.failed ("error: " ++ message))
  | .ok root =>
      let text ← loadText read task
      return ({ grammar := grammar, cached := task.cached, limit := task.limit }, root, text.toList)

/-- The end of a run without a tree: one code if the text does not match, another if the grammar is
defective. -/
def runFailed (output : String) (error : RunError) : Result :=
  match error with
  | .noMatch _ | .incomplete _ _ _ =>
      { code := 1, output := output, errors := "error: " ++ error.message ++ "\n" }
  | _ => { code := 2, output := output, errors := "runtime error: " ++ error.message ++ "\n" }

/-- The dump of a tree. -/
def Display.dump (display : Display) (source : List Char) (tree : Tree) : String :=
  tree.dump
    { spans := display.spans
      parameters := display.parameters
      palette := .choose display.colours } source

/-- Reports the undefined references of a grammar, as errors if the check is strict. -/
def check (selection : Selection) (strict colours : Bool) : ExceptT Result m Result := do
  let grammar ← loadGrammar read selection colours
  let palette := Palette.choose colours
  let label :=
    if strict then palette.failed ++ "error" ++ palette.reset
    else palette.muted ++ "warning" ++ palette.reset
  let missing := grammar.undefinedReferences
  let lines := missing.map fun (caller, name) =>
    label ++ ": undefined production `" ++ name ++ "` referenced from `" ++ caller ++ "`\n"
  return { code := if strict && !missing.isEmpty then 1 else 0, errors := String.join lines }

/-- Prints a grammar. The grammar of the dialect alone is printed as it is written. -/
def dump (selection : Selection) (json colours : Bool) : ExceptT Result m Result := do
  if selection.dialect && selection.base.isNone && selection.patches.isEmpty && !json then
    return { output := Bnf.Dialect.text }
  let grammar ← loadGrammar read selection colours
  return { output := if json then grammar.jsonText ++ "\n" else grammar.text }

/-- Prints the tree of a text. -/
def parse (task : Task) (display : Display) (json : Bool) : ExceptT Result m Result := do
  let (setting, root, text) ← prepare read task display.colours
  match (setting.parseAll root text).1 with
  | .error error => return runFailed "" error
  | .ok tree =>
      return { output := if json then tree.toJson.text ++ "\n" else display.dump text tree }

/-- Prints the events of a run, and its tree if it is asked for. -/
def trace (task : Task) (display : Display) (verbosity : Nat) (showTree : Bool) :
    ExceptT Result m Result := do
  let (setting, root, text) ← prepare read task display.colours
  let palette := Palette.choose display.colours
  let view : TraceView := { source := text, verbosity := .ofCount verbosity, palette := palette }
  let (result, events) := setting.parseAll root text
  let lines := String.join ((view.lines 0 events).map (· ++ "\n"))
  match result with
  | .error error => return runFailed lines error
  | .ok tree =>
      if showTree then
        return { output :=
          lines ++ palette.muted ++ "---" ++ palette.reset ++ "\n" ++ display.dump text tree }
      else return { output := lines }

/-- Runs a request. -/
def run (request : Request) : m Result := do
  let result ← ExceptT.run (match request with
    | .check selection strict colours => check read selection strict colours
    | .dump selection json colours => dump read selection json colours
    | .parse task display json => parse read task display json
    | .trace task display verbosity tree => trace read task display verbosity tree)
  match result with
  | .ok result | .error result => return result

end

end Command

end ParametricGrammar
