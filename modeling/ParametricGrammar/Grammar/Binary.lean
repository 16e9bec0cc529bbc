import ParametricGrammar.Binary.Varint
import ParametricGrammar.Grammar
/-!
# Grammars as bytes

The binary form of grammars: records as their fields in order, variants as an index and their
content. Bytes behind a grammar are left alone.
-/

namespace ParametricGrammar

open Binary (Bytes Reader)

/-! ### Writing -/

/-- A value as bytes. -/
def Value.toBytes : Value → Bytes
  | .int value => 0 :: Binary.int32 value
  | .context value => 1 :: Binary.index Context.all value
  | .chomping value => 2 :: Binary.index Chomping.all value

/-- Parameters as bytes. -/
def Parameters.toBytes (parameters : Parameters) : Bytes :=
  Binary.option Binary.int32 parameters.n ++ Binary.option Binary.int32 parameters.m ++
    Binary.option (Binary.index Context.all) parameters.c ++
    Binary.option (Binary.index Chomping.all) parameters.t

/-- A binding as bytes. -/
def Binding.toBytes : Binding → Bytes
  | .literal value => 0 :: value.toBytes
  | .context => [1]
  | .chomping => [2]
  | .indent n m offset => 3 :: Binary.bool n ++ Binary.bool m ++ Binary.int32 offset
  | .inFlow => [4]

/-- A bound as bytes. -/
def Bound.toBytes : Bound → Bytes
  | .fixed count => 0 :: Binary.number count.toNat
  | .computed binding => 1 :: binding.toBytes

/-- A range as bytes. -/
def CodeRange.toBytes (range : CodeRange) : Bytes :=
  Binary.number range.first.toNat ++ Binary.number range.last.toNat

namespace Node

mutual

/-- An expression as bytes. -/
def toBytes : Node → Bytes
  | .empty => [0]
  | .startOfLine => [1]
  | .endOfInput => [2]
  | .literal text => 3 :: Binary.text text
  | .chars set => 4 :: Binary.list CodeRange.toBytes set.ranges
  | .reference name arguments =>
      5 :: Binary.text name ++ Binary.list Binding.toBytes arguments
  | .sequence children => 6 :: Binary.number children.length ++ allToBytes children
  | .first children => 7 :: Binary.number children.length ++ allToBytes children
  | .repeated child minimum maximum =>
      8 :: toBytes child ++ minimum.toBytes ++ Binary.option Bound.toBytes maximum
  | .lookahead child positive => 9 :: toBytes child ++ Binary.bool positive
  | .lookbehind child => 10 :: toBytes child
  | .detectIndentation minimum child => 11 :: minimum.toBytes ++ toBytes child
  | .cases arms => 12 :: Binary.number arms.length ++ armsToBytes arms

/-- Expressions as bytes. -/
def allToBytes : List Node → Bytes
  | [] => []
  | node :: rest => toBytes node ++ allToBytes rest

/-- Cases as bytes. -/
def armsToBytes : List (Parameters × Node) → Bytes
  | [] => []
  | (pattern, body) :: rest => pattern.toBytes ++ toBytes body ++ armsToBytes rest

end

end Node

/-- A production as bytes. -/
def Production.toBytes (production : Production) : Bytes :=
  Binary.option (fun number => Binary.number number.toNat) production.number ++
    Binary.list (Binary.index Formal.all) production.formals ++ production.body.toBytes

/-- A grammar as bytes. -/
def Grammar.toBytes (grammar : Grammar) : Bytes :=
  Binary.list (fun entry => Binary.text entry.1 ++ entry.2.toBytes) grammar.entries

/-! ### Reading -/

/-- Reads a value. -/
def Value.read : Reader Value := do
  match ← Binary.readWord with
  | 0 => return .int (← Binary.readInt32)
  | 1 => return .context (← Binary.readIndex Context.all)
  | 2 => return .chomping (← Binary.readIndex Chomping.all)
  | _ => throw .unknownVariant

/-- Reads parameters. -/
def Parameters.read : Reader Parameters := do
  let n ← Binary.readOption Binary.readInt32
  let m ← Binary.readOption Binary.readInt32
  let c ← Binary.readOption (Binary.readIndex Context.all)
  let t ← Binary.readOption (Binary.readIndex Chomping.all)
  return ⟨n, m, c, t⟩

/-- Reads a binding. -/
def Binding.read : Reader Binding := do
  match ← Binary.readWord with
  | 0 => return .literal (← Value.read)
  | 1 => return .context
  | 2 => return .chomping
  | 3 =>
      let n ← Binary.readBool
      let m ← Binary.readBool
      return .indent n m (← Binary.readInt32)
  | 4 => return .inFlow
  | _ => throw .unknownVariant

/-- Reads a bound. -/
def Bound.read : Reader Bound := do
  match ← Binary.readWord with
  | 0 => return .fixed (← Binary.readWord)
  | 1 => return .computed (← Binding.read)
  | _ => throw .unknownVariant

/-- Reads a range. -/
def CodeRange.read : Reader CodeRange := do
  let first ← Binary.readWord
  return ⟨first, ← Binary.readWord⟩

namespace Node

/-- Reads an expression that nests at most so many expressions.

Every level takes a byte, so a depth of the number of bytes is never reached before they end. -/
def read : Nat → Reader Node
  | 0 => throw .endOfBuffer
  | depth + 1 => do
      match ← Binary.readWord with
      | 0 => return .empty
      | 1 => return .startOfLine
      | 2 => return .endOfInput
      | 3 => return .literal (← Binary.readText)
      | 4 => return .chars ⟨← Binary.readList CodeRange.read⟩
      | 5 =>
          let name ← Binary.readText
          return .reference name (← Binary.readList Binding.read)
      | 6 => return .sequence (← Binary.readList (read depth))
      | 7 => return .first (← Binary.readList (read depth))
      | 8 =>
          let child ← read depth
          let minimum ← Bound.read
          return .repeated child minimum (← Binary.readOption Bound.read)
      | 9 =>
          let child ← read depth
          return .lookahead child (← Binary.readBool)
      | 10 => return .lookbehind (← read depth)
      | 11 =>
          let minimum ← Binding.read
          return .detectIndentation minimum (← read depth)
      | 12 =>
          let arm : Reader (Parameters × Node) := do
            let pattern ← Parameters.read
            return (pattern, ← read depth)
          return .cases (← Binary.readList arm)
      | _ => throw .unknownVariant

end Node

/-- Reads a production whose body nests at most so many expressions. -/
def Production.read (depth : Nat) : Reader Production := do
  let number ← Binary.readOption Binary.readWord
  let formals ← Binary.readList (Binary.readIndex Formal.all)
  return ⟨number, formals, ← Node.read depth⟩

/-- Reads a grammar. -/
def Grammar.read : Reader Grammar := fun bytes =>
  let entry : Reader (String × Production) := do
    let name ← Binary.readText
    return (name, ← Production.read bytes.length)
  (Grammar.ofList <$> Binary.readList entry) bytes

/-- The grammar that bytes start with. -/
def Grammar.ofBytes (bytes : Bytes) : Except Binary.Error Grammar :=
  (Grammar.read bytes).map Prod.fst

end ParametricGrammar
