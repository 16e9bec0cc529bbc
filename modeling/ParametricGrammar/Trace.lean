import ParametricGrammar.Matching.Event
import ParametricGrammar.Tree.Dump
/-!
# Traces

A trace prints the events of a run, one to a line, indented by the number of calls that are open.
-/

namespace ParametricGrammar

/-- How much a trace shows. -/
inductive Verbosity where
  /-- Calls, successes and failures. -/
  | normal
  /-- Also matched text and skipped calls. -/
  | verbose
  /-- Also parameters of successes and failures. -/
  | veryVerbose
deriving DecidableEq

/-- The verbosity for a number of requests to be verbose. -/
def Verbosity.ofCount : Nat → Verbosity
  | 0 => normal
  | 1 => verbose
  | _ => veryVerbose

/-- How a trace is printed, and the text that the run was on. -/
structure TraceView where
  source : List Char
  verbosity : Verbosity := .normal
  palette : Palette := .plain

namespace TraceView

/-- The greatest number of characters of matched text that is shown whole. -/
def textLimit : Nat := 32

/-- Parameters after a name. -/
def parametersText (view : TraceView) (parameters : Parameters) : String :=
  if parameters.isEmpty then "" else view.palette.muted ++ parameters.text ++ view.palette.reset

/-- Matched text in quotes, cut with an ellipsis when it is long. -/
def matchedText (view : TraceView) (start stop : Nat) : String :=
  let text := (slice? view.source start stop).getD []
  let shown :=
    if text.length ≤ textLimit then escapeText text
    else escapeText (text.take (textLimit - 1)) ++ "…"
  " " ++ view.palette.matched ++ "\"" ++ shown ++ "\"" ++ view.palette.reset

/-- The parameters of a finished call, where they are shown. -/
def closingParameters (view : TraceView) (parameters : Parameters) : String :=
  if view.verbosity = .veryVerbose then view.parametersText parameters else ""

/-- The line of an event, if it has one, without indentation. -/
def line? (view : TraceView) : Event → Option String
  | .enter call =>
      some (view.palette.production ++ call.name ++ view.palette.reset ++
        view.parametersText call.parameters ++ " @" ++ Numeral.decimal call.offset)
  | .success call stop =>
      some (view.palette.matched ++ "✓" ++ view.palette.reset ++ " " ++ call.name ++
        view.closingParameters call.parameters ++ " " ++ Numeral.decimal call.offset ++ ".." ++
        Numeral.decimal stop ++
        (if view.verbosity = .normal then "" else view.matchedText call.offset stop))
  | .failure call =>
      some (view.palette.failed ++ "✗" ++ view.palette.reset ++ " " ++ call.name ++
        view.closingParameters call.parameters ++ " @" ++ Numeral.decimal call.offset)
  | .hit call =>
      if view.verbosity = .normal then none
      else
        some (view.palette.muted ++ "~ " ++ call.name ++ view.parametersText call.parameters ++
          " @" ++ Numeral.decimal call.offset ++ " (known failure)" ++ view.palette.reset)
  | .zeroWidth production offset =>
      some (view.palette.failed ++ "!" ++ view.palette.reset ++ " zero-width repetition in " ++
        production ++ " @" ++ Numeral.decimal offset)

/-- The depth that the line of an event is printed at, given the depth before the event. -/
def lineDepth (depth : Nat) : Event → Nat
  | .success _ _ | .failure _ => depth - 1
  | .enter _ | .hit _ | .zeroWidth _ _ => depth

/-- The depth after an event. -/
def depthAfter (depth : Nat) : Event → Nat
  | .enter _ => depth + 1
  | .success _ _ | .failure _ => depth - 1
  | .hit _ | .zeroWidth _ _ => depth

/-- The lines of events from a depth on, behind earlier lines in reverse. -/
def linesAfter (view : TraceView) : List String → Nat → List Event → List String
  | earlier, _, [] => earlier.reverse
  | earlier, depth, event :: rest =>
      let earlier := match view.line? event with
        | some line => (Tree.indentation (lineDepth depth event) ++ line) :: earlier
        | none => earlier
      view.linesAfter earlier (depthAfter depth event) rest

/-- The lines of events from a depth on. -/
def lines (view : TraceView) (depth : Nat) (events : List Event) : List String :=
  view.linesAfter [] depth events

/-- The depth after events that start at a depth. -/
def depthAfterAll (depth : Nat) (events : List Event) : Nat :=
  events.foldl depthAfter depth

end TraceView

end ParametricGrammar
