import ParametricGrammar.Bnf.Literal
import ParametricGrammar.Grammar
/-!
# Grammars as text

The notation in which grammars are written. Expressions without a notation of their own print as
markers: an empty set as `<never>`, indentation detection as `<detect-indentation(..)>`, nested
cases as `<context ..>`, and repetition ranges with both bounds.
-/

namespace ParametricGrammar

/-- A range as a code point, or as two code points in brackets. -/
def CodeRange.text (range : CodeRange) : String :=
  if range.first = range.last then Bnf.codePointText range.first
  else "[" ++ Bnf.codePointText range.first ++ "-" ++ Bnf.codePointText range.last ++ "]"

/-- A set as a dot, a range, or a group of alternative ranges. -/
def CharSet.text (set : CharSet) : String :=
  if set = CharSet.any then "."
  else
    match set.ranges with
    | [] => "<never>"
    | [range] => range.text
    | ranges => "( " ++ joined " | " (ranges.map CodeRange.text) ++ " )"

/-- A binding as an argument: a literal, `c`, `t`, `in-flow(c)` or a sum such as `n+1+m`. -/
def Binding.text : Binding → String
  | .literal value => value.text
  | .context => "c"
  | .chomping => "t"
  | .inFlow => "in-flow(c)"
  | .indent n m offset =>
      let start := if n then "n" else ""
      let shifted :=
        if offset = 0 then start
        else if start = "" then Numeral.signed offset.toInt
        else start ++ Numeral.explicitlySigned offset.toInt
      if m then (if shifted = "" then "m" else shifted ++ "+m")
      else if shifted = "" then "0" else shifted

/-- A bound as a count or as the binding it is computed from. -/
def Bound.text : Bound → String
  | .fixed count => Numeral.decimal count.toNat
  | .computed binding => binding.text

namespace Bnf

/-- A list in parentheses, or nothing when it is empty. -/
def parenthesised : List String → String
  | [] => ""
  | texts => "(" ++ joined "," texts ++ ")"

/-- The position that an expression is printed in, by what has to be grouped there. -/
inductive Position where
  /-- Nothing has to be grouped. -/
  | alternation
  /-- Alternatives have to be grouped. -/
  | sequence
  /-- Whatever is not a single unit has to be grouped. -/
  | unit
deriving DecidableEq

/-- Text in a group when a condition holds. -/
def grouped (group : Bool) (text : String) : String :=
  if group then "( " ++ text ++ " )" else text

/-- A literal as its pieces in a row. -/
def literalText (position : Position) (text : String) : String :=
  match Piece.ofText text with
  | [] => "<empty>"
  | [piece] => piece.text
  | pieces => grouped (position = .unit) (joined " " (pieces.map Piece.text))

/-- The mark behind a repeated expression. -/
def repetitionText : Bound → Option Bound → String
  | .fixed 0, some (.fixed 1) => "?"
  | .fixed 0, none => "*"
  | .fixed 1, none => "+"
  | minimum, some maximum =>
      if minimum = maximum then braced minimum.text
      else braced (minimum.text ++ "," ++ maximum.text)
  | minimum, none => braced (minimum.text ++ ",")

mutual

/-- An expression in a position. -/
def nodeText (position : Position) : Node → String
  | .empty => "<empty>"
  | .startOfLine => "<start-of-line>"
  | .endOfInput => "<end-of-input>"
  | .literal text => literalText position text
  | .chars set => set.text
  | .reference name arguments => name ++ parenthesised (arguments.map Binding.text)
  | .sequence [] => "<empty>"
  | .sequence children =>
      grouped (position = .unit) (joined " " (nodeTexts .sequence children))
  | .first children =>
      grouped (position ≠ .alternation) (joined " | " (nodeTexts .alternation children))
  | .repeated child minimum maximum =>
      grouped (position = .unit) (nodeText .unit child ++ repetitionText minimum maximum)
  | .lookahead child positive =>
      "[ lookahead " ++ (if positive then "= " else "≠ ") ++ nodeText .alternation child ++ " ]"
  | .lookbehind child => "[ lookbehind = " ++ nodeText .alternation child ++ " ]"
  | .detectIndentation minimum child =>
      "<detect-indentation(" ++ minimum.text ++ ")>( " ++ nodeText .alternation child ++ " )"
  | .cases arms => "<context" ++ armTexts arms ++ ">"

/-- The expressions of a list in one position. -/
def nodeTexts (position : Position) : List Node → List String
  | [] => []
  | node :: rest => nodeText position node :: nodeTexts position rest

/-- Nested cases, each as its pattern and its body. -/
def armTexts : List (Parameters × Node) → String
  | [] => ""
  | (pattern, body) :: rest =>
      " " ++ pattern.text ++ "=> " ++ nodeText .sequence body ++ ";" ++ armTexts rest

end

/-- One line that defines a production, or one case of it. -/
def clauseText (number : Option UInt32) (name : String) (head : List String) (body : Node) :
    String :=
  let label := match number with
    | some number => "[" ++ Numeral.decimal number.toNat ++ "] "
    | none => ""
  label ++ name ++ parenthesised head ++ " ::= " ++ nodeText .alternation body ++ "\n"

/-- The head of a case: the formals, with the pattern's values in place of those it binds. -/
def caseHead (formals : List Formal) (pattern : Parameters) : List String :=
  formals.map fun name => ((pattern.get? name).map Value.text).getD name.text

/-- The lines of a production; a body of cases becomes one line for each. -/
def productionText (name : String) (production : Production) : String :=
  match production.body with
  | .cases [] => ""
  | .cases ((pattern, body) :: rest) =>
      clauseText production.number name (caseHead production.formals pattern) body ++
        String.join (rest.map fun (pattern, body) =>
          clauseText none name (caseHead production.formals pattern) body)
  | body => clauseText production.number name (production.formals.map Formal.text) body

end Bnf

/-- An expression in the grammar notation. -/
def Node.text (node : Node) : String :=
  Bnf.nodeText .alternation node

/-- A grammar in the grammar notation, production by production. -/
def Grammar.text (grammar : Grammar) : String :=
  String.join (grammar.entries.map fun (name, production) => Bnf.productionText name production)

end ParametricGrammar
