import ParametricGrammar.Parameters
/-!
# Events of a run

A run reports what happens to the calls that it makes. Events are data, so that a trace is a list
and its printing a function of it.
-/

namespace ParametricGrammar

/-- A production called with concrete parameters at a byte offset. -/
structure Call where
  name : String
  parameters : Parameters
  offset : Nat
deriving DecidableEq, Hashable

/-- One event of a run. -/
inductive Event where
  /-- A call is about to be evaluated. -/
  | enter (call : Call)
  /-- A call matched up to an offset. -/
  | success (call : Call) (stop : Nat)
  /-- A call did not match. -/
  | failure (call : Call)
  /-- A call is known to fail and is skipped. -/
  | hit (call : Call)
  /-- An unbounded repetition in a production stopped after an empty match. -/
  | zeroWidth (production : String) (offset : Nat)
deriving DecidableEq

end ParametricGrammar
