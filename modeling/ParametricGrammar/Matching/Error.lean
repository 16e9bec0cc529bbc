import ParametricGrammar.Parameters
/-!
# Errors of a run

What stops the evaluation of a grammar, apart from an ordinary failure to match.
-/

namespace ParametricGrammar

/-- Why a run ended without an answer. -/
inductive RunError where
  /-- A reference names a production that the grammar does not define. -/
  | undefinedProduction (name caller : String)
  /-- A reference has another number of arguments than the production has formals. -/
  | arityMismatch (production : String) (expected actual : Nat)
  /-- A parameter could not be read or bound in a production. -/
  | parameter (production : String) (cause : ParameterError)
  /-- No case of a production accepts the bound parameters. -/
  | uncoveredContext (production : String) (parameters : Parameters)
  /-- The root production fails at the start of the text. -/
  | noMatch (root : String)
  /-- The root production matches only a proper initial part of the text. -/
  | incomplete (root : String) (offset length : Nat)
  /-- More productions are nested than the limit allows. -/
  | recursionLimitExceeded (limit : Nat)
deriving DecidableEq

/-- The wording of a run error. -/
def RunError.message : RunError → String
  | undefinedProduction name caller =>
      "undefined production `" ++ name ++ "` referenced from `" ++ caller ++ "`"
  | arityMismatch production expected actual =>
      "`" ++ production ++ "` takes " ++ Numeral.decimal expected ++ " argument(s), called with " ++
        Numeral.decimal actual
  | parameter production cause => "in `" ++ production ++ "`: " ++ cause.message
  | uncoveredContext production parameters =>
      "no case of `" ++ production ++ "` accepts `" ++ production ++ parameters.text ++ "`"
  | noMatch root => "`" ++ root ++ "` does not match the input"
  | incomplete root offset length =>
      "`" ++ root ++ "` matched only up to offset " ++ Numeral.decimal offset ++ " of " ++
        Numeral.decimal length
  | recursionLimitExceeded limit =>
      "recursion limit exceeded (" ++ Numeral.decimal limit ++ " nested productions)"

end ParametricGrammar
