import ParametricGrammar.Binding
import ParametricGrammar.Bnf.Error
import ParametricGrammar.Tree
/-!
# Parameter expressions

Arguments, counts and head parameters are read from the parse tree of a grammar text. A sum such as
`n+1+m` is gathered into coefficients; only some coefficients make a binding.
-/

namespace ParametricGrammar

namespace Tree

/-- The span of a tree. -/
def span (tree : Tree) : Span := ⟨tree.start, tree.stop⟩

/-- The error that a tree lacks something. -/
def malformed (tree : Tree) (expected : String) : CompileError :=
  .malformedTree expected tree.span

/-- The first direct child of a name, which has to be there. -/
def required (tree : Tree) (name : String) : Except CompileError Tree :=
  match tree.child? name with
  | some child => .ok child
  | none => .error (tree.malformed name)

end Tree

namespace Bnf

/-- Coefficients of a sum of numbers and parameters. -/
structure Sum where
  n : Int := 0
  m : Int := 0
  c : Int := 0
  t : Int := 0
  /-- The number of terms that are `c` or `t`. -/
  enumerations : Nat := 0
  constant : Int := 0
  /-- The number of all terms. -/
  terms : Nat := 0
deriving DecidableEq

namespace Sum

/-- Whether no parameter takes part. -/
def isConstant (sum : Sum) : Bool :=
  sum.n = 0 && sum.m = 0 && sum.enumerations = 0

/-- The parameter that the sum is, if it is a bare one. -/
def formal? (sum : Sum) : Option Formal :=
  if sum.terms ≠ 1 then none
  else if (sum.n, sum.m, sum.c, sum.t) = (1, 0, 0, 0) then some .n
  else if (sum.n, sum.m, sum.c, sum.t) = (0, 1, 0, 0) then some .m
  else if (sum.n, sum.m, sum.c, sum.t) = (0, 0, 1, 0) then some .c
  else if (sum.n, sum.m, sum.c, sum.t) = (0, 0, 0, 1) then some .t
  else none

/-- The binding that computes the sum, if there is one. -/
def binding? (sum : Sum) : Option Binding :=
  match sum.formal? with
  | some .c => some .context
  | some .t => some .chomping
  | _ =>
      if sum.enumerations > 0 then none
      else if (sum.n = 0 ∨ sum.n = 1) ∧ (sum.m = 0 ∨ sum.m = 1) then
        if sum.isConstant then some (.literal (.int (Int32.ofInt sum.constant)))
        else some (.indent (sum.n = 1) (sum.m = 1) (Int32.ofInt sum.constant))
      else none

/-- Adds a parameter with a sign. -/
def addFormal (sum : Sum) (sign : Int) : Formal → Sum
  | .n => { sum with n := sum.n + sign, terms := sum.terms + 1 }
  | .m => { sum with m := sum.m + sign, terms := sum.terms + 1 }
  | .c =>
      { sum with
        c := sum.c + sign, enumerations := sum.enumerations + 1, terms := sum.terms + 1 }
  | .t =>
      { sum with
        t := sum.t + sign, enumerations := sum.enumerations + 1, terms := sum.terms + 1 }

/-- Adds a number with a sign, unless it or the sum leaves the range of 32 bits. -/
def addNumber? (sum : Sum) (sign value : Int) : Option Sum :=
  match Numeral.int32? (value * sign), Numeral.int32? (sum.constant + value * sign) with
  | some _, some _ =>
      some { sum with constant := sum.constant + value * sign, terms := sum.terms + 1 }
  | _, _ => none

end Sum

/-- The number that a tree spells, if it is in the range of 32 bits. -/
def decimalValue (source : List Char) (tree : Tree) : Except CompileError Int :=
  let text := tree.text source
  match (Numeral.integer? text.toList).bind fun value =>
      (Numeral.int32? value).map fun _ => value with
  | some value => .ok value
  | none => .error (.invalidNumber text tree.span)

/-- Adds a term of a sum to what comes before it. -/
def addTerm (source : List Char) (whole : Tree) (sum : Sum) (sign : Int) (term : Tree) :
    Except CompileError Sum :=
  match term.child? "param-variable" with
  | some named =>
      match Formal.ofText? (named.text source) with
      | some formal => .ok (sum.addFormal sign formal)
      | none => .error (named.malformed "param-variable")
  | none => do
      let value ← decimalValue source (← term.required "decimal")
      match sum.addNumber? sign value with
      | some sum => .ok sum
      | none => .error (.invalidNumber (whole.text source) whole.span)

/-- Gathers the terms among the parts of a sum, each with the sign of the operator before it. -/
def gather (source : List Char) (whole : Tree) :
    Sum → Int → List Tree → Except CompileError Sum
  | sum, _, [] => .ok sum
  | sum, sign, part :: rest =>
      if part.name = "sum-operator" then
        gather source whole sum (if part.text source = "-" then -1 else 1) rest
      else if part.name = "param-term" then
        match addTerm source whole sum sign part with
        | .ok sum => gather source whole sum sign rest
        | .error error => .error error
      else gather source whole sum sign rest

/-- The coefficients of a sum. -/
def sumOf (source : List Char) (tree : Tree) : Except CompileError Sum :=
  gather source tree {} 1 tree.content

/-- The error that an expression cannot be computed. -/
def unsupported (source : List Char) (tree : Tree) : CompileError :=
  .unsupportedExpression (tree.text source) tree.span

/-- The context or chomping literal that a parameter is, if it is one. -/
def literalOf (source : List Char) (parameter : Tree) : Except CompileError (Option Value) :=
  match parameter.child? "context-value" with
  | some node =>
      match Context.ofText? (node.text source) with
      | some value => .ok (some (.context value))
      | none => .error (node.malformed "context-value")
  | none =>
      match parameter.child? "chomping-value" with
      | some node =>
          match Chomping.ofText? (node.text source) with
          | some value => .ok (some (.chomping value))
          | none => .error (node.malformed "chomping-value")
      | none => .ok none

/-- The binding of one argument of a reference. -/
def argumentOf (source : List Char) (parameter : Tree) : Except CompileError Binding := do
  match ← literalOf source parameter with
  | some value => return .literal value
  | none =>
      match parameter.child? "in-flow" with
      | some inFlow =>
          let named ← inFlow.required "param-variable"
          if named.text source = "c" then return .inFlow
          else throw (unsupported source inFlow)
      | none =>
          let tree ← parameter.required "param-sum"
          match (← sumOf source tree).binding? with
          | some binding => return binding
          | none => throw (unsupported source tree)

/-- The bound of a repetition count. -/
def boundOf (source : List Char) (tree : Tree) : Except CompileError Bound := do
  let sum ← sumOf source tree
  if sum.isConstant then
    if 0 ≤ sum.constant then return .fixed (UInt32.ofNat sum.constant.toNat)
    else throw (unsupported source tree)
  else
    match sum.binding? with
    | some (.indent n m offset) => return .computed (.indent n m offset)
    | _ => throw (unsupported source tree)

end Bnf

end ParametricGrammar
