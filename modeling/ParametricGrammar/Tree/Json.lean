import ParametricGrammar.Grammar.Json
import ParametricGrammar.Tree
/-!
# Parse trees as JSON

The nested JSON form of parse trees.
-/

namespace ParametricGrammar

namespace Tree

mutual

/-- A tree as JSON. -/
def toJson : Tree → Json
  | ⟨name, parameters, content, start, stop⟩ =>
      .object [
        ("name", .string name),
        ("parameters", parameters.toJson),
        ("content", .array (allToJson content)),
        ("range", .object [("start", .integer start), ("end", .integer stop)])]

/-- Trees as JSON. -/
def allToJson : List Tree → List Json
  | [] => []
  | tree :: rest => toJson tree :: allToJson rest

end

end Tree

end ParametricGrammar
