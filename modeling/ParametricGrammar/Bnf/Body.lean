import ParametricGrammar.Bnf.Sum
import ParametricGrammar.Node
/-!
# Bodies of productions

The expression that a body of a grammar text denotes, and the character set that it denotes when it
is built from literals alone. Both are computed from the parts of a tree upwards. References are
never folded into sets, so replacing a production changes every expression that mentions it.
-/

namespace ParametricGrammar

namespace Bnf

/-- The text between the quotes of a quoted string or character. -/
def quotedContent (text : List Char) : List Char :=
  text.tail.dropLast

/-- The code point of a hexadecimal character such as `x41`. -/
def hexOf (source : List Char) (tree : Tree) : Except CompileError UInt32 :=
  let text := tree.text source
  let digits := match text.toList with
    | 'x' :: digits => digits
    | digits => digits
  match Numeral.natural? 16 digits with
  | some code =>
      if code ≤ CharSet.maxCodePoint.toNat then .ok (UInt32.ofNat code)
      else .error (.invalidNumber text tree.span)
  | none => .error (.invalidNumber text tree.span)

/-- The code point at one end of a range. -/
def rangeBoundOf (source : List Char) (tree : Tree) : Except CompileError UInt32 :=
  match tree.child? "hex-char" with
  | some hex => hexOf source hex
  | none => do
      let quoted ← tree.required "quoted-char"
      match quotedContent (quoted.text source).toList with
      | char :: _ => return char.val
      | [] => throw (quoted.malformed "quoted-char")

/-- The set of a range between two bounds. -/
def rangeOf (source : List Char) (tree : Tree) : Except CompileError CharSet :=
  match tree.children "range-bound" with
  | first :: last :: _ => do
      let first ← rangeBoundOf source first
      let last ← rangeBoundOf source last
      return .ofRanges [⟨first, last⟩]
  | _ => .error (tree.malformed "range-bound")

/-- What was computed for the first part of a name. -/
def part? {α : Type} (name : String) (parts : List (Tree × α)) : Option α :=
  (parts.find? fun part => part.1.name = name).map Prod.snd

/-- What was computed for the parts of a name. -/
def partsOf {α : Type} (name : String) (parts : List (Tree × α)) : List α :=
  (parts.filter fun part => part.1.name = name).map Prod.snd

/-! ### Character sets -/

/-- The union of sets, if all are there. -/
def unionAll : List (Option CharSet) → Option CharSet
  | [] => some .empty
  | sets => sets.foldl (fun union set => union.bind fun union => set.map union.union) (some .empty)

/-- The first of some sets without the others, if all are there. -/
def differenceAll : List (Option CharSet) → Option CharSet
  | [] => none
  | set :: excluded =>
      excluded.foldl (fun rest set => rest.bind fun rest => set.map rest.minus) set

/-- The set that a tree denotes, given those of its parts. -/
def foldParts (source : List Char) (tree : Tree) (parts : List (Tree × Option CharSet)) :
    Option CharSet :=
  match tree.name with
  | "alternation" => unionAll (partsOf "sequence" parts)
  | "sequence" =>
      match partsOf "difference" parts with
      | [only] => only
      | _ => none
  | "difference" => differenceAll (partsOf "quantified" parts)
  | "quantified" =>
      if (tree.child? "quantifier").isSome then none else (part? "atom" parts).join
  | "atom" => (parts.head?.map Prod.snd).join
  | "group" => (part? "alternation" parts).join
  | "code-point-range" => (rangeOf source tree).toOption
  | "hex-char" => (hexOf source tree).toOption.map .single
  | "quoted-string" =>
      match quotedContent (tree.text source).toList with
      | [char] => some (.single char.val)
      | _ => none
  | "any-char" => some .any
  | _ => none

mutual

/-- The character set that a tree denotes, if it is built from literals alone. -/
def fold? (source : List Char) : Tree → Option CharSet
  | ⟨name, parameters, content, start, stop⟩ =>
      foldParts source ⟨name, parameters, content, start, stop⟩ (foldAll source content)

/-- The trees of a list with the sets that they denote. -/
def foldAll (source : List Char) : List Tree → List (Tree × Option CharSet)
  | [] => []
  | tree :: rest => (tree, fold? source tree) :: foldAll source rest

end

/-- Whether a tree always matches one character, given the same of its parts. -/
def singleParts (source : List Char) (tree : Tree) (parts : List (Tree × Bool)) : Bool :=
  match tree.name with
  | "alternation" => (partsOf "sequence" parts).all id
  | "sequence" =>
      match partsOf "difference" parts with
      | [only] => only
      | _ => false
  | "difference" => (partsOf "quantified" parts).head?.getD false
  | "quantified" => (tree.child? "quantifier").isNone && (part? "atom" parts).getD false
  | "atom" => (parts.head?.map Prod.snd).getD false
  | "group" => (part? "alternation" parts).getD false
  | "reference" => (tree.child? "parameter-list").isNone
  | _ => (fold? source tree).isSome

mutual

/-- Whether a tree always matches exactly one character, if the productions it mentions do. -/
def isSingle (source : List Char) : Tree → Bool
  | ⟨name, parameters, content, start, stop⟩ =>
      singleParts source ⟨name, parameters, content, start, stop⟩ (singleAll source content)

/-- The trees of a list, each with whether it always matches one character. -/
def singleAll (source : List Char) : List Tree → List (Tree × Bool)
  | [] => []
  | tree :: rest => (tree, isSingle source tree) :: singleAll source rest

end

/-! ### Expressions -/

/-- The only item of a list, or all of them combined. -/
def soleOr (combine : List Node → Node) : List Node → Node
  | [node] => node
  | nodes => combine nodes

/-- The first of some operands, guarded against the others. -/
def guarded (first : Except CompileError Node) (excluded : List (Except CompileError Node)) :
    Except CompileError Node := do
  let guards ← excluded.mapM fun operand => operand.map Node.notAhead
  let first ← first
  return .sequence (guards ++ [first])

/-- The expression of a difference. -/
def differenceOf (source : List Char) (tree : Tree) (operands : List (Except CompileError Node)) :
    Except CompileError Node :=
  match operands with
  | [] => .error (tree.malformed "quantified")
  | [only] => only
  | first :: excluded =>
      match fold? source tree with
      | some set => .ok (.chars set)
      | none => guarded first excluded

/-- The expression of an atom with the quantifier behind it. -/
def quantifiedOf (source : List Char) (tree : Tree) (atom : Option (Except CompileError Node)) :
    Except CompileError Node := do
  let atom ← atom.getD (.error (tree.malformed "atom"))
  match tree.child? "quantifier" with
  | none => return atom
  | some quantifier =>
      match quantifier.text source with
      | "?" => return .optional atom
      | "*" => return .zeroOrMore atom
      | "+" => return .oneOrMore atom
      | _ =>
          let count ← boundOf source (← quantifier.required "param-sum")
          return .repeated atom count (some count)

/-- The span of a tree without spaces, line breaks and comments at its ends. -/
def trimmedSpan (tree : Tree) : Span :=
  let significant := tree.content.filter fun child =>
    child.name ≠ "s-ignorable" && child.name ≠ "s-space"
  match significant.head?, significant.getLast? with
  | some first, some last => ⟨first.start, last.stop⟩
  | _, _ => tree.span

/-- The expression of a lookahead or lookbehind. -/
def lookaroundOf (source : List Char) (tree : Tree)
    (operand : Option (Except CompileError Node)) : Except CompileError Node := do
  let body ← tree.required "alternation"
  let operand := operand.getD (.error (tree.malformed "alternation"))
  if (tree.child? "lookbehind-positive").isSome then
    if isSingle source body then
      match fold? source body with
      | some set => return .lookbehind (.chars set)
      | none => return .lookbehind (← operand)
    else
      let span := trimmedSpan body
      throw (.notACharSet (slice source span.start span.stop) span)
  else
    let child ← operand
    return .lookahead child (tree.child? "lookahead-negative").isNone

/-- The expression of a name in angle brackets. -/
def specialOf (source : List Char) (tree : Tree) : Except CompileError Node :=
  let name := String.ofList (quotedContent (tree.text source).toList)
  match name with
  | "empty" => .ok .empty
  | "start-of-line" => .ok .startOfLine
  | "end-of-input" => .ok .endOfInput
  | _ => .error (.unknownSpecial name tree.span)

/-- The expression of a reference with its arguments. -/
def referenceOf (source : List Char) (tree : Tree) : Except CompileError Node := do
  let name ← tree.required "production-name"
  let parameters := match tree.child? "parameter-list" with
    | some list => list.children "parameter"
    | none => []
  return .reference (name.text source) (← parameters.mapM (argumentOf source))

/-- The expression that a tree denotes, given those of its parts. -/
def bodyParts (source : List Char) (tree : Tree)
    (parts : List (Tree × Except CompileError Node)) : Except CompileError Node :=
  match tree.name with
  | "alternation" => return soleOr .first (← (partsOf "sequence" parts).mapM id)
  | "sequence" => return soleOr .sequence (← (partsOf "difference" parts).mapM id)
  | "difference" => differenceOf source tree (partsOf "quantified" parts)
  | "quantified" => quantifiedOf source tree (part? "atom" parts)
  | "atom" =>
      match parts with
      | part :: _ => part.2
      | [] => .error (tree.malformed "atom")
  | "group" => (part? "alternation" parts).getD (.error (tree.malformed "alternation"))
  | "lookaround" => lookaroundOf source tree (part? "alternation" parts)
  | "special" => specialOf source tree
  | "code-point-range" => (rangeOf source tree).map .chars
  | "hex-char" => (hexOf source tree).map fun code => .chars (.single code)
  | "quoted-string" =>
      .ok (.literal (String.ofList (quotedContent (tree.text source).toList)))
  | "any-char" => .ok (.chars .any)
  | "reference" => referenceOf source tree
  | _ => .error (tree.malformed "atom")

mutual

/-- The expression that the tree of a body denotes. -/
def bodyOf (source : List Char) : Tree → Except CompileError Node
  | ⟨name, parameters, content, start, stop⟩ =>
      bodyParts source ⟨name, parameters, content, start, stop⟩ (bodyAll source content)

/-- The trees of a list with the expressions that they denote. -/
def bodyAll (source : List Char) : List Tree → List (Tree × Except CompileError Node)
  | [] => []
  | tree :: rest => (tree, bodyOf source tree) :: bodyAll source rest

end

end Bnf

end ParametricGrammar
