import ParametricGrammar.Numeral
/-!
# Production parameters

Productions are parameterised by an indentation column `n`, a detected indentation `m`, a structural
context `c` and a chomping behaviour `t`. A `Parameters` record holds the ones that are bound; as a
pattern, each bound field is a constraint.
-/

namespace ParametricGrammar

/-- The structural context of a production. -/
inductive Context where
  | blockIn | blockOut | blockKey | flowIn | flowOut | flowKey | annotationIn
deriving DecidableEq, Hashable

namespace Context

/-- All contexts, in the order of their indices. -/
def all : List Context :=
  [blockIn, blockOut, blockKey, flowIn, flowOut, flowKey, annotationIn]

/-- The spelling of a context. -/
def text : Context → String
  | blockIn => "block-in"
  | blockOut => "block-out"
  | blockKey => "block-key"
  | flowIn => "flow-in"
  | flowOut => "flow-out"
  | flowKey => "flow-key"
  | annotationIn => "annotation-in"

/-- The context with a given spelling. -/
def ofText? (text : String) : Option Context :=
  all.find? fun context => context.text = text

theorem ofText?_text (context : Context) : ofText? context.text = some context := by
  cases context <;> decide

/-- The context inside a flow collection, defined for flow and key contexts. -/
def inFlow? : Context → Option Context
  | flowOut | flowIn => some flowIn
  | blockKey | flowKey => some flowKey
  | blockIn | blockOut | annotationIn => none

end Context

/-- The chomping behaviour of a block scalar. -/
inductive Chomping where
  | strip | clip | keep
deriving DecidableEq, Hashable

namespace Chomping

/-- All chomping behaviours, in the order of their indices. -/
def all : List Chomping := [strip, clip, keep]

/-- The spelling of a chomping behaviour. -/
def text : Chomping → String
  | strip => "strip"
  | clip => "clip"
  | keep => "keep"

/-- The chomping behaviour with a given spelling. -/
def ofText? (text : String) : Option Chomping :=
  all.find? fun chomping => chomping.text = text

theorem ofText?_text (chomping : Chomping) : ofText? chomping.text = some chomping := by
  cases chomping <;> decide

end Chomping

/-- The name of a formal parameter. -/
inductive Formal where
  | n | m | c | t
deriving DecidableEq, Hashable

namespace Formal

/-- All formals, in the order of their indices. -/
def all : List Formal := [n, m, c, t]

/-- The spelling of a formal. -/
def text : Formal → String
  | n => "n"
  | m => "m"
  | c => "c"
  | t => "t"

/-- The formal with a given spelling. -/
def ofText? (text : String) : Option Formal :=
  all.find? fun formal => formal.text = text

theorem ofText?_text (formal : Formal) : ofText? formal.text = some formal := by
  cases formal <;> decide

/-- What kind of value a formal takes, in words. -/
def kind : Formal → String
  | n | m => "integer"
  | c => "context"
  | t => "chomping"

end Formal

/-- A concrete parameter value. -/
inductive Value where
  | int (value : Int32)
  | context (value : Context)
  | chomping (value : Chomping)
deriving DecidableEq, Hashable

namespace Value

/-- The formal that a literal of this kind stands for in a production head. -/
def formal : Value → Formal
  | int _ => .n
  | context _ => .c
  | chomping _ => .t

/-- The spelling of a value. -/
def text : Value → String
  | int value => Numeral.signed value.toInt
  | context value => value.text
  | chomping value => value.text

end Value

/-- Why a parameter could not be read or bound. -/
inductive ParameterError where
  /-- The parameter is read but not bound. -/
  | unbound (name : Formal)
  /-- A value of another kind was given for the parameter. -/
  | mismatch (name : Formal) (value : Value)
  /-- The context has no counterpart inside a flow collection. -/
  | inFlowUndefined (context : Context)
deriving DecidableEq

/-- The wording of a parameter error. -/
def ParameterError.message : ParameterError → String
  | unbound name => "parameter `" ++ name.text ++ "` is not bound"
  | mismatch name value =>
      "parameter `" ++ name.text ++ "` expects " ++ name.kind ++ ", got `" ++ value.text ++ "`"
  | inFlowUndefined context => "in-flow(" ++ context.text ++ ") is undefined"

/-- The parameters bound in one invocation, or a pattern of required ones. -/
structure Parameters where
  n : Option Int32 := none
  m : Option Int32 := none
  c : Option Context := none
  t : Option Chomping := none
deriving DecidableEq, Hashable

namespace Parameters

/-- No parameter bound. -/
def empty : Parameters := {}

/-- Whether no parameter is bound. -/
def isEmpty (parameters : Parameters) : Bool :=
  parameters.n.isNone && parameters.m.isNone && parameters.c.isNone && parameters.t.isNone

/-- The value bound to a formal. -/
def get? (parameters : Parameters) : Formal → Option Value
  | .n => parameters.n.map .int
  | .m => parameters.m.map .int
  | .c => parameters.c.map .context
  | .t => parameters.t.map .chomping

/-- The value bound to a formal, or the error that names it. -/
def require (parameters : Parameters) (name : Formal) : Except ParameterError Value :=
  match parameters.get? name with
  | some value => .ok value
  | none => .error (.unbound name)

/-- The integer bound to `n`. -/
def requireN (parameters : Parameters) : Except ParameterError Int32 :=
  match parameters.n with
  | some value => .ok value
  | none => .error (.unbound .n)

/-- The integer bound to `m`. -/
def requireM (parameters : Parameters) : Except ParameterError Int32 :=
  match parameters.m with
  | some value => .ok value
  | none => .error (.unbound .m)

/-- The context bound to `c`. -/
def requireC (parameters : Parameters) : Except ParameterError Context :=
  match parameters.c with
  | some value => .ok value
  | none => .error (.unbound .c)

/-- The chomping behaviour bound to `t`. -/
def requireT (parameters : Parameters) : Except ParameterError Chomping :=
  match parameters.t with
  | some value => .ok value
  | none => .error (.unbound .t)

/-- Binds a formal to a value of its kind. -/
def bind (parameters : Parameters) : Formal → Value → Except ParameterError Parameters
  | .n, .int value => .ok { parameters with n := some value }
  | .m, .int value => .ok { parameters with m := some value }
  | .c, .context value => .ok { parameters with c := some value }
  | .t, .chomping value => .ok { parameters with t := some value }
  | name, value => .error (.mismatch name value)

/-- Whether a field meets a constraint. -/
def fieldSatisfies {α : Type} [DecidableEq α] (bound wanted : Option α) : Bool :=
  wanted.isNone || bound = wanted

/-- Whether every field bound in the pattern is bound to the same value here. -/
def satisfies (parameters pattern : Parameters) : Bool :=
  fieldSatisfies parameters.n pattern.n && fieldSatisfies parameters.m pattern.m &&
    fieldSatisfies parameters.c pattern.c && fieldSatisfies parameters.t pattern.t

/-- The bound formals with their values, in the order of the formals. -/
def toList (parameters : Parameters) : List (Formal × Value) :=
  Formal.all.filterMap fun name => (parameters.get? name).map (name, ·)

/-- The bound parameters as `(n=2,c=block-in)`, or nothing when none is bound. -/
def text (parameters : Parameters) : String :=
  if parameters.isEmpty then ""
  else
    "(" ++ joined "," (parameters.toList.map fun (name, value) => name.text ++ "=" ++ value.text)
      ++ ")"

end Parameters

end ParametricGrammar
