import ParametricGrammar.Binding
import ParametricGrammar.CharSet
/-!
# Grammar expressions

The expressions that production bodies are made of, the names they refer to, and their decidable
equality.
-/

namespace ParametricGrammar

/-- A grammar expression. -/
inductive Node where
  /-- Matches the empty text. -/
  | empty
  /-- Matches the empty text at the start of the text or right after a line break. -/
  | startOfLine
  /-- Matches the empty text at the end of the text. -/
  | endOfInput
  /-- Matches a literal text. -/
  | literal (text : String)
  /-- Matches one character of a set. -/
  | chars (set : CharSet)
  /-- Invokes a production; arguments bind its formals by position. -/
  | reference (name : String) (arguments : List Binding)
  /-- Matches the children one after the other. -/
  | sequence (children : List Node)
  /-- Matches as the first of the children that matches. -/
  | first (children : List Node)
  /-- Matches the child as often as possible within the bounds. -/
  | repeated (child : Node) (minimum : Bound) (maximum : Option Bound)
  /-- Matches the empty text where the child matches, or where it does not. -/
  | lookahead (child : Node) (positive : Bool)
  /-- Matches the empty text where the child matches exactly the character before. -/
  | lookbehind (child : Node)
  /-- Binds `m` to the number of spaces ahead, at least a minimum, and matches the child there. -/
  | detectIndentation (minimum : Binding) (child : Node)
  /-- Matches as the body of the first case whose pattern the parameters satisfy. -/
  | cases (arms : List (Parameters × Node))

namespace Node

/-- A reference without arguments. -/
def call (name : String) : Node := .reference name []

/-- At most one match of a node. -/
def optional (child : Node) : Node := .repeated child (.fixed 0) (some (.fixed 1))

/-- Any number of matches of a node. -/
def zeroOrMore (child : Node) : Node := .repeated child (.fixed 0) none

/-- At least one match of a node. -/
def oneOrMore (child : Node) : Node := .repeated child (.fixed 1) none

/-- Matches the empty text where the node does not match. -/
def notAhead (child : Node) : Node := .lookahead child false

/-- Matches the empty text where the node matches. -/
def ahead (child : Node) : Node := .lookahead child true

mutual

/-- The names of the productions a node refers to, in order, with repetitions. -/
def references : Node → List String
  | .empty | .startOfLine | .endOfInput | .literal _ | .chars _ => []
  | .reference name _ => [name]
  | .sequence children | .first children => referencesOfAll children
  | .repeated child _ _ | .lookahead child _ | .lookbehind child | .detectIndentation _ child =>
      references child
  | .cases arms => referencesOfArms arms

/-- The names that the nodes of a list refer to. -/
def referencesOfAll : List Node → List String
  | [] => []
  | node :: rest => references node ++ referencesOfAll rest

/-- The names that the bodies of cases refer to. -/
def referencesOfArms : List (Parameters × Node) → List String
  | [] => []
  | (_, body) :: rest => references body ++ referencesOfArms rest

end

theorem referencesOfAll_eq (nodes : List Node) :
    referencesOfAll nodes = nodes.flatMap references := by
  induction nodes with
  | nil => rfl
  | cons node nodes induction => rw [referencesOfAll, induction, List.flatMap_cons]

theorem referencesOfArms_eq (arms : List (Parameters × Node)) :
    referencesOfArms arms = arms.flatMap fun arm => arm.2.references := by
  induction arms with
  | nil => rfl
  | cons arm arms induction => rw [referencesOfArms, induction, List.flatMap_cons]

theorem mem_referencesOfAll {name : String} {node : Node} {nodes : List Node}
    (member : node ∈ nodes) (mentioned : name ∈ node.references) :
    name ∈ referencesOfAll nodes := by
  rw [referencesOfAll_eq]
  exact List.mem_flatMap_of_mem member mentioned

mutual

/-- Whether two nodes are equal. -/
def same : Node → Node → Bool
  | .empty, .empty | .startOfLine, .startOfLine | .endOfInput, .endOfInput => true
  | .literal left, .literal right => left = right
  | .chars left, .chars right => left = right
  | .reference left leftArguments, .reference right rightArguments =>
      left = right && leftArguments = rightArguments
  | .sequence left, .sequence right | .first left, .first right => sameAll left right
  | .repeated left leftMinimum leftMaximum, .repeated right rightMinimum rightMaximum =>
      same left right && leftMinimum = rightMinimum && leftMaximum = rightMaximum
  | .lookahead left leftPositive, .lookahead right rightPositive =>
      same left right && leftPositive = rightPositive
  | .lookbehind left, .lookbehind right => same left right
  | .detectIndentation leftMinimum left, .detectIndentation rightMinimum right =>
      leftMinimum = rightMinimum && same left right
  | .cases left, .cases right => sameArms left right
  | _, _ => false

/-- Whether two lists of nodes are equal. -/
def sameAll : List Node → List Node → Bool
  | [], [] => true
  | left :: leftRest, right :: rightRest => same left right && sameAll leftRest rightRest
  | _, _ => false

/-- Whether two lists of cases are equal. -/
def sameArms : List (Parameters × Node) → List (Parameters × Node) → Bool
  | [], [] => true
  | (leftPattern, left) :: leftRest, (rightPattern, right) :: rightRest =>
      leftPattern = rightPattern && same left right && sameArms leftRest rightRest
  | _, _ => false

end

mutual

theorem same_iff : (left right : Node) → (same left right = true ↔ left = right)
  | .empty, right | .startOfLine, right | .endOfInput, right | .literal _, right
  | .chars _, right | .reference _ _, right => by cases right <;> simp [same]
  | .sequence children, right | .first children, right => by
      cases right <;> simp [same, sameAll_iff children]
  | .repeated child _ _, right => by
      cases right <;> simp [same, same_iff child, and_assoc]
  | .lookahead child _, right | .lookbehind child, right | .detectIndentation _ child, right => by
      cases right <;> simp [same, same_iff child]
  | .cases arms, right => by cases right <;> simp [same, sameArms_iff arms]

theorem sameAll_iff : (left right : List Node) → (sameAll left right = true ↔ left = right)
  | [], right => by cases right <;> simp [sameAll]
  | node :: rest, right => by cases right <;> simp [sameAll, same_iff node, sameAll_iff rest]

theorem sameArms_iff :
    (left right : List (Parameters × Node)) → (sameArms left right = true ↔ left = right)
  | [], right => by cases right <;> simp [sameArms]
  | (pattern, body) :: rest, [] => by simp [sameArms]
  | (pattern, body) :: rest, (_, _) :: _ => by
      simp [sameArms, same_iff body, sameArms_iff rest]

end

instance : DecidableEq Node := fun left right =>
  decidable_of_iff _ (same_iff left right)

end Node

end ParametricGrammar
