import ParametricGrammar.Bnf.Clause
import ParametricGrammar.Bnf.Dialect
import ParametricGrammar.Matching.Session
/-!
# Grammars of texts

A grammar text is read with the grammar of the dialect, and its tree is turned into a grammar. A
text that does not match is reported at its first clause that cannot be read.
-/

namespace ParametricGrammar

namespace Bnf

/-- How grammar texts are read with the grammar of a dialect. -/
def setting (dialect : Grammar) : Setting := { grammar := dialect }

/-- The place behind a match of an expression, or a given place if there is none. -/
def endOf (session : Session) (offset : Nat) (node : Node) :
    Except CompileError (Nat × Session) :=
  match session.parse offset .empty node with
  | (.matched _ stop, session) => .ok (stop.offset, session)
  | (.unmatched, session) => .ok (offset, session)
  | (.failed error, _) => .error (.run error)

/-- The start of the first clause that cannot be read, behind spaces and comments. -/
def locateError (dialect : Grammar) (text : List Char) : Except CompileError Nat := do
  let session : Session := { setting := setting dialect, text := text }
  let (clauses, session) ← endOf session 0 (.zeroOrMore (.call "production"))
  let (start, _) ← endOf session clauses (.call "s-ignorable")
  return start

/-- The tree of a grammar text. -/
def treeOf (dialect : Grammar) (text : List Char) : Except CompileError Tree :=
  match ((setting dialect).parseAll "grammar" text).1 with
  | .ok tree => .ok tree
  | .error (.noMatch _) | .error (.incomplete _ _ _) => do
      let start ← locateError dialect text
      throw (.invalidSyntax ⟨start, start⟩)
  | .error error => .error (.run error)

/-- The grammar that a text defines when it is read with the grammar of a dialect. -/
def compileWith (dialect : Grammar) (text : String) : Except CompileError Grammar := do
  grammarOf text.toList (← treeOf dialect text.toList)

/-- The grammar that a text defines. -/
def compile (text : String) : Except CompileError Grammar :=
  compileWith Dialect.grammar text

end Bnf

end ParametricGrammar
