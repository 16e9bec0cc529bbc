import ParametricGrammar.Bnf.Compile
/-!
# Assembling grammars

A grammar is assembled from a base and fragments laid over it in order. References may be checked
when it is finished instead of when a run reaches them.
-/

namespace ParametricGrammar

/-- A grammar under assembly. -/
structure Assembly where
  grammar : Grammar := .empty
  /-- Whether finishing checks references. -/
  validate : Bool := false

namespace Assembly

/-- An assembly that starts from a grammar. -/
def ofGrammar (grammar : Grammar) : Assembly := { grammar := grammar }

/-- An assembly that starts from the grammar of a text. -/
def ofText (text : String) : Except CompileError Assembly :=
  (Bnf.compile text).map ofGrammar

/-- Lays a fragment over the grammar. -/
def patch (assembly : Assembly) (fragment : Grammar) : Assembly :=
  { assembly with grammar := assembly.grammar.merge fragment }

/-- Lays the grammar of a text over the grammar. -/
def patchText (assembly : Assembly) (text : String) : Except CompileError Assembly :=
  (Bnf.compile text).map assembly.patch

/-- Replaces or adds a production. -/
def production (assembly : Assembly) (name : String) (production : Production) : Assembly :=
  { assembly with grammar := assembly.grammar.insert name production }

/-- Replaces or adds a production without number and formals. -/
def body (assembly : Assembly) (name : String) (body : Node) : Assembly :=
  assembly.production name { body := body }

/-- The assembled grammar, or its first undefined reference if references are checked. -/
def finish (assembly : Assembly) : Except CompileError Grammar :=
  match assembly.validate, assembly.grammar.undefinedReferences with
  | true, (caller, name) :: _ => .error (.undefinedReference caller name)
  | _, _ => .ok assembly.grammar

end Assembly

end ParametricGrammar
