import ParametricGrammar.Proofs.Dialect.Compiled
/-!
# Expressions that are read back

Compiled expressions are printed as grammar text, and three kinds of them are printed as a text that
is turned down: a set without characters has only a marker; the least offset behind `n` is written
as a magnitude that is out of range on its own; and a lookbehind for a difference is written with a
row in it, which is not known to match one character.
-/

namespace ParametricGrammar

/-- Whether the text of an argument is read back. -/
def Binding.isReadable : Binding → Bool
  | .indent true _ offset => offset ≠ -2147483648
  | _ => true

/-- Whether the text of a count is read back. -/
def Bound.isReadable : Bound → Bool
  | .fixed _ => true
  | .computed binding => binding.isReadable

namespace Node

mutual

/-- Whether the text of an expression is known to match one character, if the productions that it
mentions do. -/
def isOneChar : Node → Bool
  | .literal text => text.toList.length = 1
  | .chars set => !set.ranges.isEmpty
  | .reference _ arguments => arguments.isEmpty
  | .sequence children => isOneCharAlone children
  | .first children => areOneChar children
  | .empty | .startOfLine | .endOfInput | .repeated _ _ _ | .lookahead _ _ | .lookbehind _
  | .detectIndentation _ _ | .cases _ => false

/-- Whether a row is a single expression whose text is known to match one character. -/
def isOneCharAlone : List Node → Bool
  | [only] => isOneChar only
  | _ => false

/-- Whether the texts of all expressions of a list are known to match one character. -/
def areOneChar : List Node → Bool
  | [] => true
  | node :: rest => isOneChar node && areOneChar rest

end

mutual

/-- Whether the text of a compiled expression is read back. -/
def isReadable : Node → Bool
  | .empty | .startOfLine | .endOfInput | .literal _ => true
  | .chars set => !set.ranges.isEmpty
  | .reference _ arguments => arguments.all Binding.isReadable
  | .sequence children | .first children => areReadable children
  | .repeated child minimum _ => minimum.isReadable && isReadable child
  | .lookahead child _ => isReadable child
  | .lookbehind child => isOneChar child
  | .detectIndentation _ _ | .cases _ => false

/-- Whether the texts of all expressions of a list are read back. -/
def areReadable : List Node → Bool
  | [] => true
  | node :: rest => isReadable node && areReadable rest

end

theorem areOneChar_eq (nodes : List Node) : areOneChar nodes = nodes.all isOneChar := by
  induction nodes with
  | nil => rfl
  | cons node nodes induction => rw [areOneChar, induction, List.all_cons]

theorem areReadable_eq (nodes : List Node) : areReadable nodes = nodes.all isReadable := by
  induction nodes with
  | nil => rfl
  | cons node nodes induction => rw [areReadable, induction, List.all_cons]

/-- A row of several expressions is not known to match one character. -/
theorem isOneChar_of_two {nodes : List Node} (two : 2 ≤ nodes.length) :
    (sequence nodes).isOneChar = false := by
  rcases nodes with _ | ⟨first, _ | ⟨second, rest⟩⟩
  · cases two
  · exact absurd two (by simp)
  · rfl

mutual

/-- What is known to match one character is read back. -/
theorem isReadable_of_isOneChar : (node : Node) → node.isOneChar = true → node.isReadable = true
  | .literal _, _ => by rw [isReadable]
  | .chars _, one => by rwa [isReadable]
  | .reference _ arguments, one => by
      rw [isOneChar, List.isEmpty_iff] at one
      rw [isReadable, one, List.all_nil]
  | .sequence [only], one => by
      rw [isOneChar, isOneCharAlone] at one
      rw [isReadable, areReadable, areReadable, Bool.and_true]
      exact isReadable_of_isOneChar only one
  | .first children, one => by
      rw [isOneChar] at one
      rw [isReadable]
      exact areReadable_of_areOneChar children one

private theorem areReadable_of_areOneChar :
    (nodes : List Node) → areOneChar nodes = true → areReadable nodes = true
  | [], _ => rfl
  | node :: rest, one => by
      rw [areOneChar, Bool.and_eq_true] at one
      rw [areReadable, Bool.and_eq_true]
      exact ⟨isReadable_of_isOneChar node one.1, areReadable_of_areOneChar rest one.2⟩

end

end Node

end ParametricGrammar
