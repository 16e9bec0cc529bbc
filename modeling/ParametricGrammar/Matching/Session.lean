import ParametricGrammar.Matching.Evaluate
/-!
# Runs on one text

A session evaluates expressions on one text and keeps what it remembers from one evaluation to the
next. `parseAll` is a fresh session that asks for a production to cover the whole text.
-/

namespace ParametricGrammar

/-- The name that stands for the caller of calls made from outside. -/
def outside : String := "<root>"

namespace Setting

/-- Evaluates an expression at a byte offset, which matches nothing off a character boundary. -/
def parse (setting : Setting) (text : List Char) (offset : Nat) (parameters : Parameters)
    (node : Node) (memory : Memory) : Reply :=
  match Cursor.at? text offset with
  | some cursor => node.evaluate outside (setting.invoke setting.limit) parameters cursor memory
  | none => (.unmatched, memory)

/-- The tree of a production that covers a whole text, and the events of the run in order. -/
def parseAll (setting : Setting) (root : String) (text : List Char) :
    Except RunError Tree × List Event :=
  let (outcome, memory) :=
    setting.invoke setting.limit outside root [] .empty (.start text) .fresh
  let result := match outcome with
    | .matched (tree :: _) stop =>
        if stop.rest.isEmpty then .ok tree
        else .error (.incomplete root stop.offset (byteLength text))
    | .matched [] _ | .unmatched => .error (.noMatch root)
    | .failed error => .error error
  (result, memory.events.reverse)

end Setting

/-- A text under evaluation with what earlier evaluations left behind. -/
structure Session where
  setting : Setting
  text : List Char
  memory : Memory := .fresh

namespace Session

/-- Evaluates an expression and keeps what is remembered after it. -/
def parse (session : Session) (offset : Nat) (parameters : Parameters) (node : Node) :
    Outcome × Session :=
  let (outcome, memory) := session.setting.parse session.text offset parameters node session.memory
  (outcome, { session with memory := memory })

/-- The events since the last call of `takeEvents`, in order, and the session without them. -/
def takeEvents (session : Session) : List Event × Session :=
  (session.memory.events.reverse,
    { session with memory := { session.memory with events := [] } })

end Session

end ParametricGrammar
