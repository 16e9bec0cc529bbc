import ParametricGrammar.Cursor
import ParametricGrammar.Parameters
/-!
# Parse trees

A node of a parse tree is one successful invocation of a production. Literals and character sets
leave no node, so the content of a node lists the productions invoked directly under it.
-/

namespace ParametricGrammar

/-- A successful production invocation with the byte range that it covers. -/
structure Tree where
  name : String
  parameters : Parameters
  content : List Tree
  start : Nat
  stop : Nat

namespace Tree

/-- The text that a tree covers in a source, empty if the source has no such range. -/
def text (tree : Tree) (source : List Char) : String :=
  slice source tree.start tree.stop

/-- The number of bytes that a tree covers. -/
def size (tree : Tree) : Nat := tree.stop - tree.start

/-- Whether a tree covers no byte. -/
def isEmpty (tree : Tree) : Bool := tree.stop ≤ tree.start

/-- The first direct child of a name. -/
def child? (tree : Tree) (name : String) : Option Tree :=
  tree.content.find? fun child => child.name = name

/-- The direct children of a name. -/
def children (tree : Tree) (name : String) : List Tree :=
  tree.content.filter fun child => child.name = name

mutual

/-- The first node of a name, in preorder. -/
def find? (name : String) : Tree → Option Tree
  | ⟨label, parameters, content, start, stop⟩ =>
      if label = name then some ⟨label, parameters, content, start, stop⟩
      else findIn? name content

/-- The first node of a name in a list of trees, in preorder. -/
def findIn? (name : String) : List Tree → Option Tree
  | [] => none
  | tree :: rest =>
      match find? name tree with
      | some found => some found
      | none => findIn? name rest

end

mutual

/-- The nodes of a tree with their depths, in preorder. -/
def preorder (depth : Nat) : Tree → List (Nat × Tree)
  | ⟨name, parameters, content, start, stop⟩ =>
      (depth, ⟨name, parameters, content, start, stop⟩) :: preorderAll (depth + 1) content

/-- The nodes of a list of trees with their depths, in preorder. -/
def preorderAll (depth : Nat) : List Tree → List (Nat × Tree)
  | [] => []
  | tree :: rest => preorder depth tree ++ preorderAll depth rest

end

end Tree

end ParametricGrammar
