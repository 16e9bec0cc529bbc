import ParametricGrammar.Parameters
/-!
# Argument bindings

How one argument of a production reference, or a repetition count, is computed from the parameters
of the caller.
-/

namespace ParametricGrammar

/-- One argument of a reference as a function of the caller's parameters. -/
inductive Binding where
  /-- A literal value. -/
  | literal (value : Value)
  /-- The caller's `c`. -/
  | context
  /-- The caller's `t`. -/
  | chomping
  /-- An offset, plus the caller's `n` and `m` as far as they take part. -/
  | indent (n m : Bool) (offset : Int32)
  /-- The counterpart of the caller's `c` inside a flow collection. -/
  | inFlow
deriving DecidableEq

namespace Binding

/-- The value of the argument. -/
def resolve (caller : Parameters) : Binding → Except ParameterError Value
  | .literal value => .ok value
  | .context => caller.requireC.map .context
  | .chomping => caller.requireT.map .chomping
  | .indent n m offset => do
      let fromN ← if n then caller.requireN else .ok 0
      let fromM ← if m then caller.requireM else .ok 0
      return .int (offset + fromN + fromM)
  | .inFlow => do
      let context ← caller.requireC
      match context.inFlow? with
      | some inner => return .context inner
      | none => throw (.inFlowUndefined context)

/-- The value of the argument where an integer is needed. -/
def resolveInt (caller : Parameters) (binding : Binding) : Except ParameterError Int32 := do
  match ← binding.resolve caller with
  | .int value => return value
  | value => throw (.mismatch .n value)

end Binding

/-- A repetition bound. -/
inductive Bound where
  /-- A fixed count. -/
  | fixed (count : UInt32)
  /-- A count taken from the parameters, a negative one read as zero. -/
  | computed (binding : Binding)
deriving DecidableEq

/-- The count that the bound stands for. -/
def Bound.resolve (caller : Parameters) : Bound → Except ParameterError Nat
  | .fixed count => .ok count.toNat
  | .computed binding => (binding.resolveInt caller).map fun value => value.toInt.toNat

end ParametricGrammar
