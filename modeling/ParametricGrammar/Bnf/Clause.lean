import ParametricGrammar.Bnf.Body
import ParametricGrammar.Grammar
/-!
# Clauses

A grammar text is a row of clauses. Clauses of one name form one production; literals in their
heads make them the cases of its body.
-/

namespace ParametricGrammar

namespace Bnf

/-- One definition of a grammar text, its body still a tree. -/
structure Clause where
  name : String
  formals : List Formal
  pattern : Parameters
  number : Option UInt32
  body : Tree
  span : Span

/-- The formals and literals of a production head. -/
structure Head where
  formals : List Formal := []
  pattern : Parameters := .empty

namespace Head

/-- The formal that a head parameter declares, and its literal if it is one. -/
def declared (source : List Char) (parameter : Tree) :
    Except CompileError (Formal × Option Value) := do
  let invalid (reason : String) : CompileError :=
    .invalidFormal (parameter.text source) reason parameter.span
  match ← literalOf source parameter with
  | some value => return (value.formal, some value)
  | none =>
      match parameter.child? "param-sum" with
      | none => throw (invalid "`in-flow` is not a parameter name")
      | some tree =>
          let sum ← sumOf source tree
          match sum.formal? with
          | some formal => return (formal, none)
          | none =>
              if sum.isConstant then return (.n, some (.int (Int32.ofInt sum.constant)))
              else throw (invalid "expected a parameter name or a literal")

/-- Adds a parameter to the head before it. -/
def add (source : List Char) (head : Head) (parameter : Tree) : Except CompileError Head := do
  let invalid (reason : String) : CompileError :=
    .invalidFormal (parameter.text source) reason parameter.span
  let (formal, literal) ← declared source parameter
  if formal ∈ head.formals then throw (invalid "parameter declared twice")
  let formals := head.formals ++ [formal]
  match literal with
  | none => return ⟨formals, head.pattern⟩
  | some value =>
      match head.pattern.bind formal value with
      | .ok pattern => return ⟨formals, pattern⟩
      | .error _ => throw (invalid "value does not fit the parameter")

/-- The head that a parameter list declares. -/
def ofTree (source : List Char) (list : Tree) : Except CompileError Head :=
  (list.children "parameter").foldlM (add source) {}

end Head

/-- The section number that a tree holds. -/
def sectionNumber (source : List Char) (tree : Tree) : Except CompileError UInt32 := do
  let decimal ← tree.required "decimal"
  let text := decimal.text source
  match Numeral.word? text.toList with
  | some number => return number
  | none => throw (.invalidNumber text decimal.span)

/-- The clause of a tree. -/
def Clause.ofTree (source : List Char) (tree : Tree) : Except CompileError Clause := do
  let name ← tree.required "production-name"
  let number ← match tree.child? "section-number" with
    | some label => (sectionNumber source label).map some
    | none => pure none
  let head ← match tree.child? "parameter-list" with
    | some list => Head.ofTree source list
    | none => pure {}
  let body ← tree.required "alternation"
  return {
    name := name.text source
    formals := head.formals
    pattern := head.pattern
    number := number
    body := body
    span := ⟨((tree.child? "section-number").getD name).start, tree.stop⟩ }

/-- The error of the first clause that declares other formals than the first one. -/
def inconsistent? (formals : List Formal) (clauses : List Clause) : Option CompileError :=
  (clauses.find? fun clause => clause.formals ≠ formals).map fun clause =>
    .inconsistentFormals clause.name clause.span

/-- The error of the first clause whose literals an earlier one has, too. -/
def duplicate? : List Parameters → List Clause → Option CompileError
  | _, [] => none
  | earlier, clause :: rest =>
      if clause.pattern ∈ earlier then
        some (.duplicateClause clause.name clause.pattern clause.span)
      else duplicate? (earlier ++ [clause.pattern]) rest

/-- The body of a production: that of its only clause, or one case for each. -/
def clausesBody (source : List Char) (clauses : List Clause) : Except CompileError Node := do
  let arms ← clauses.mapM fun clause =>
    (bodyOf source clause.body).map fun body => (clause.pattern, body)
  match arms with
  | [(pattern, body)] => return if pattern.isEmpty then body else .cases arms
  | _ => return .cases arms

/-- The production that clauses of one name form. -/
def productionOf (source : List Char) (clauses : List Clause) : Except CompileError Production :=
  match clauses with
  | [] => .error (.malformedTree "production" ⟨0, 0⟩)
  | first :: rest =>
      match inconsistent? first.formals rest with
      | some error => .error error
      | none =>
          match duplicate? [] (first :: rest) with
          | some error => .error error
          | none => do
              let body ← clausesBody source (first :: rest)
              return {
                number := (first :: rest).findSome? (·.number)
                formals := first.formals
                body := body }

/-- Clauses by name, in the order of the first clause of each. -/
def groups (clauses : List Clause) : List (String × List Clause) :=
  (clauses.map Clause.name).eraseDups.map fun name =>
    (name, clauses.filter fun clause => clause.name = name)

/-- The grammar that the tree of a whole text denotes. -/
def grammarOf (source : List Char) (root : Tree) : Except CompileError Grammar := do
  let clauses ← (root.children "production").mapM (Clause.ofTree source)
  let productions ← (groups clauses).mapM fun (name, clauses) =>
    (productionOf source clauses).map fun production => (name, production)
  return .ofList productions

end Bnf

end ParametricGrammar
