import ParametricGrammar.Grammar
import ParametricGrammar.Matching.Error
import ParametricGrammar.Matching.Event
import ParametricGrammar.Tree
import Std.Data.HashSet
/-!
# Evaluation of grammar expressions

An expression is evaluated at a place of a text with bound parameters. Calls recurse on the room
left under the recursion limit, expressions on their structure, and repetitions on a count that
the bounds or the rest of the text give, so every evaluation ends.
-/

namespace ParametricGrammar

/-- The result of evaluating an expression. -/
inductive Outcome where
  /-- A match with the trees of the calls in it and the place behind it. -/
  | matched (nodes : List Tree) (stop : Cursor)
  /-- An ordinary failure to match. -/
  | unmatched
  /-- An error that ends the run. -/
  | failed (error : RunError)

/-- What a run remembers: calls known to fail, and its events with the latest first. -/
structure Memory where
  failures : Std.HashSet Call
  events : List Event

namespace Memory

/-- Nothing remembered. -/
def fresh : Memory := ⟨∅, []⟩

/-- Adds an event. -/
def log (memory : Memory) (event : Event) : Memory :=
  { memory with events := event :: memory.events }

/-- Adds a call to those known to fail. -/
def remember (memory : Memory) (call : Call) : Memory :=
  { memory with failures := memory.failures.insert call }

end Memory

/-- The result of an evaluation together with what the run remembers after it. -/
abbrev Reply := Outcome × Memory

/-- Evaluation of something at a place. -/
abbrev Step := Cursor → Memory → Reply

/-- The evaluation of calls that bodies use: from the production that calls, the name, arguments and
caller's parameters. -/
abbrev Invoke := (caller : String) → (name : String) → List Binding → Parameters → Step

/-- The end of a repetition, with the trees gathered in reverse. -/
def closeRepetition (minimum count : Nat) (nodes : List Tree) (stop : Cursor) : Outcome :=
  if minimum ≤ count then .matched nodes.reverse stop else .unmatched

/-- Repeats a step at most a number of times, after some repetitions already made.

An unbounded repetition stops after an empty match, as it would repeat it for ever. -/
def repetition (production : String) (step : Step) (minimum : Nat) (unbounded : Bool) :
    Nat → Nat → List Tree → Step
  | 0, count, nodes, cursor, memory => (closeRepetition minimum count nodes cursor, memory)
  | budget + 1, count, nodes, cursor, memory =>
      match step cursor memory with
      | (.failed error, memory) => (.failed error, memory)
      | (.unmatched, memory) => (closeRepetition minimum count nodes cursor, memory)
      | (.matched more stop, memory) =>
          if unbounded && stop.offset = cursor.offset then
            (closeRepetition minimum (count + 1) (more.reverseAux nodes) stop,
              memory.log (.zeroWidth production stop.offset))
          else
            repetition production step minimum unbounded budget (count + 1)
              (more.reverseAux nodes) stop memory

/-- The greatest indentation that a parameter can hold. -/
def maxIndentation : Nat := 2147483647

namespace Node

mutual

/-- Evaluates an expression in the body of a production. -/
def evaluate (production : String) (invoke : Invoke) : Node → Parameters → Step
  | .empty, _, cursor, memory => (.matched [] cursor, memory)
  | .startOfLine, _, cursor, memory =>
      (if cursor.startsLine then .matched [] cursor else .unmatched, memory)
  | .endOfInput, _, cursor, memory =>
      (if cursor.rest.isEmpty then .matched [] cursor else .unmatched, memory)
  | .literal text, _, cursor, memory =>
      match cursor.skip? text.toList with
      | some stop => (.matched [] stop, memory)
      | none => (.unmatched, memory)
  | .chars set, _, cursor, memory =>
      match cursor.next? with
      | some (char, stop) => (if set.contains char then .matched [] stop else .unmatched, memory)
      | none => (.unmatched, memory)
  | .reference name arguments, parameters, cursor, memory =>
      invoke production name arguments parameters cursor memory
  | .sequence children, parameters, cursor, memory =>
      evaluateAll production invoke children parameters cursor memory
  | .first children, parameters, cursor, memory =>
      evaluateFirst production invoke children parameters cursor memory
  | .repeated child minimum maximum, parameters, cursor, memory =>
      match minimum.resolve parameters with
      | .error cause => (.failed (.parameter production cause), memory)
      | .ok least =>
          match maximum with
          | none =>
              repetition production (evaluate production invoke child parameters) least true
                (cursor.rest.length + 1) 0 [] cursor memory
          | some bound =>
              match bound.resolve parameters with
              | .error cause => (.failed (.parameter production cause), memory)
              | .ok most =>
                  repetition production (evaluate production invoke child parameters) least false
                    most 0 [] cursor memory
  | .lookahead child positive, parameters, cursor, memory =>
      match evaluate production invoke child parameters cursor memory with
      | (.failed error, memory) => (.failed error, memory)
      | (.matched _ _, memory) => (if positive then .matched [] cursor else .unmatched, memory)
      | (.unmatched, memory) => (if positive then .unmatched else .matched [] cursor, memory)
  | .lookbehind child, parameters, cursor, memory =>
      match cursor.previous? with
      | none => (.unmatched, memory)
      | some before =>
          match evaluate production invoke child parameters before memory with
          | (.matched _ stop, memory) =>
              (if stop.offset = cursor.offset then .matched [] cursor else .unmatched, memory)
          | (outcome, memory) => (outcome, memory)
  | .detectIndentation minimum child, parameters, cursor, memory =>
      let detected := Int32.ofNat (min cursor.spacesAhead maxIndentation)
      match minimum.resolveInt parameters with
      | .error cause => (.failed (.parameter production cause), memory)
      | .ok least =>
          if detected < least then (.unmatched, memory)
          else
            evaluate production invoke child { parameters with m := some detected } cursor memory
  | .cases arms, parameters, cursor, memory =>
      evaluateCases production invoke arms parameters cursor memory

/-- Evaluates expressions one after the other. -/
def evaluateAll (production : String) (invoke : Invoke) : List Node → Parameters → Step
  | [], _, cursor, memory => (.matched [] cursor, memory)
  | node :: rest, parameters, cursor, memory =>
      match evaluate production invoke node parameters cursor memory with
      | (.matched nodes stop, memory) =>
          match evaluateAll production invoke rest parameters stop memory with
          | (.matched more stop, memory) => (.matched (nodes ++ more) stop, memory)
          | (outcome, memory) => (outcome, memory)
      | (outcome, memory) => (outcome, memory)

/-- Evaluates alternatives up to the first that matches. -/
def evaluateFirst (production : String) (invoke : Invoke) : List Node → Parameters → Step
  | [], _, _, memory => (.unmatched, memory)
  | node :: rest, parameters, cursor, memory =>
      match evaluate production invoke node parameters cursor memory with
      | (.unmatched, memory) => evaluateFirst production invoke rest parameters cursor memory
      | (outcome, memory) => (outcome, memory)

/-- Evaluates the body of the first case that the parameters satisfy. -/
def evaluateCases (production : String) (invoke : Invoke) :
    List (Parameters × Node) → Parameters → Step
  | [], parameters, _, memory => (.failed (.uncoveredContext production parameters), memory)
  | (pattern, body) :: rest, parameters, cursor, memory =>
      if parameters.satisfies pattern then
        evaluate production invoke body parameters cursor memory
      else evaluateCases production invoke rest parameters cursor memory

end

variable {production : String} {invoke : Invoke} {parameters : Parameters}

theorem evaluate_sequence (children : List Node) :
    evaluate production invoke (.sequence children) parameters =
      evaluateAll production invoke children parameters := by
  funext cursor memory
  rw [evaluate]

theorem evaluate_first (children : List Node) :
    evaluate production invoke (.first children) parameters =
      evaluateFirst production invoke children parameters := by
  funext cursor memory
  rw [evaluate]

end Node

/-- Binds formals to the values of arguments, one by one. -/
def bindArguments (caller name : String) (parameters : Parameters) :
    List Formal → List Binding → Parameters → Except RunError Parameters
  | formal :: formals, argument :: arguments, bound =>
      match argument.resolve parameters with
      | .error cause => .error (.parameter caller cause)
      | .ok value =>
          match bound.bind formal value with
          | .error cause => .error (.parameter name cause)
          | .ok bound => bindArguments caller name parameters formals arguments bound
  | _, _, bound => .ok bound

/-- What stays the same during a run: the grammar, whether failed calls are remembered, and how many
calls may be nested. -/
structure Setting where
  grammar : Grammar
  cached : Bool := true
  limit : Nat := 1024

namespace Setting

/-- The tree or failure that a call ends with once its body has been evaluated. -/
def conclude (setting : Setting) (call : Call) : Reply → Reply
  | (.matched nodes stop, memory) =>
      (.matched [⟨call.name, call.parameters, nodes, call.offset, stop.offset⟩] stop,
        memory.log (.success call stop.offset))
  | (.unmatched, memory) =>
      let memory := memory.log (.failure call)
      (.unmatched, if setting.cached then memory.remember call else memory)
  | (.failed error, memory) => (.failed error, memory)

/-- Evaluates a call with room for a number of nested calls. -/
def invoke (setting : Setting) : Nat → Invoke
  | room, caller, name, arguments, parameters, cursor, memory =>
      match setting.grammar.get? name with
      | none => (.failed (.undefinedProduction name caller), memory)
      | some production =>
          if arguments.length = production.formals.length then
            match bindArguments caller name parameters production.formals arguments .empty with
            | .error error => (.failed error, memory)
            | .ok bound =>
                let call : Call := ⟨name, bound, cursor.offset⟩
                if setting.cached && memory.failures.contains call then
                  (.unmatched, memory.log (.hit call))
                else
                  match room with
                  | 0 => (.failed (.recursionLimitExceeded setting.limit), memory)
                  | room + 1 =>
                      setting.conclude call
                        (production.body.evaluate name (setting.invoke room) bound cursor
                          (memory.log (.enter call)))
          else
            (.failed (.arityMismatch name production.formals.length arguments.length), memory)

end Setting

end ParametricGrammar
