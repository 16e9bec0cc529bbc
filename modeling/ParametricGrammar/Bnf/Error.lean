import ParametricGrammar.Matching.Error
/-!
# Errors of grammar texts

The defects of a grammar text, most of them located by a byte span of it.
-/

namespace ParametricGrammar

/-- A byte range of a text. -/
structure Span where
  start : Nat
  stop : Nat
deriving DecidableEq

/-- Why a grammar text has no grammar. -/
inductive CompileError where
  /-- From the start of the span on, the text is not a production. -/
  | invalidSyntax (span : Span)
  /-- Reading the text ended with an error of the run. -/
  | run (cause : RunError)
  /-- The tree of the text lacks a node. -/
  | malformedTree (expected : String) (span : Span)
  /-- A number is out of range. -/
  | invalidNumber (text : String) (span : Span)
  /-- A parameter of a production head is neither a formal nor a literal. -/
  | invalidFormal (text reason : String) (span : Span)
  /-- Two clauses of a production have different formals. -/
  | inconsistentFormals (name : String) (span : Span)
  /-- Two clauses of a production have the same literals. -/
  | duplicateClause (name : String) (pattern : Parameters) (span : Span)
  /-- A name in angle brackets stands for nothing. -/
  | unknownSpecial (name : String) (span : Span)
  /-- An argument or count cannot be computed. -/
  | unsupportedExpression (text : String) (span : Span)
  /-- A production is mentioned but not defined. -/
  | undefinedReference (caller name : String)
  /-- What a lookbehind asks for is not always one character. -/
  | notACharSet (text : String) (span : Span)
deriving DecidableEq

namespace CompileError

/-- The place of an error in the text, if it has one. -/
def span? : CompileError → Option Span
  | run _ | undefinedReference _ _ => none
  | invalidSyntax span | malformedTree _ span | invalidNumber _ span | invalidFormal _ _ span
  | inconsistentFormals _ span | duplicateClause _ _ span | unknownSpecial _ span
  | unsupportedExpression _ span | notACharSet _ span => some span

/-- The wording of an error. -/
def message : CompileError → String
  | invalidSyntax _ => "cannot parse a production here"
  | run cause => "meta-grammar failure: " ++ cause.message
  | malformedTree expected _ => "malformed parse tree: missing `" ++ expected ++ "`"
  | invalidNumber text _ => "invalid number `" ++ text ++ "`"
  | invalidFormal text reason _ =>
      "invalid parameter `" ++ text ++ "` in production head: " ++ reason
  | inconsistentFormals name _ => "clauses of `" ++ name ++ "` declare different parameters"
  | duplicateClause name pattern _ => "`" ++ name ++ pattern.text ++ "` is defined twice"
  | unknownSpecial name _ => "unknown special `<" ++ name ++ ">`"
  | unsupportedExpression text _ => "unsupported parameter expression `" ++ text ++ "`"
  | undefinedReference caller name =>
      "undefined production `" ++ name ++ "` referenced from `" ++ caller ++ "`"
  | notACharSet text _ => "`" ++ text ++ "` is not a character set"

end CompileError

end ParametricGrammar
