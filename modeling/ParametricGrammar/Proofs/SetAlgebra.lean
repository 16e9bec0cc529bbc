import ParametricGrammar.Proofs.SetOperations
/-!
# The algebra of character sets

Sets that are built from ranges by the operations, in any combination, stay canonical. Their members
are therefore those that set algebra gives, at every code point of 32 bits.
-/

namespace ParametricGrammar

/-- The range between two code points has those between them, whichever comes first. -/
theorem CodeRange.has_spanning {left right code : UInt32} :
    (spanning left right).has code = true ↔
      (left ≤ code ∧ code ≤ right) ∨ (right ≤ code ∧ code ≤ left) := by
  rw [spanning]
  split <;>
  · rename_i order
    rw [UInt32.le_iff_toNat_le] at order
    simp only [CharSet.has_iff_toNat, UInt32.le_iff_toNat_le]
    omega

namespace CharSet

/-- A way to build a set. -/
inductive Recipe where
  /-- Ranges in any order, each with its ends in either order. -/
  | ofRanges (items : List CodeRange)
  /-- All characters. -/
  | any
  /-- Nothing. -/
  | empty
  /-- What either of two sets has. -/
  | union (left right : Recipe)
  /-- What the first of two sets has and the second has not. -/
  | minus (left right : Recipe)

/-- The set that is built. -/
def Recipe.set : Recipe → CharSet
  | ofRanges items => .ofRanges items
  | any => .any
  | empty => .empty
  | union left right => left.set.union right.set
  | minus left right => left.set.minus right.set

/-- Every set that can be built has canonical ranges. -/
theorem Recipe.canonical (recipe : Recipe) : Canonical recipe.set.ranges := by
  induction recipe with
  | ofRanges items => exact canonical_ofRanges items
  | any => exact valid_any.canonical
  | empty => exact valid_empty.canonical
  | union left right => exact canonical_ofRanges _
  | minus left right canonicalLeft canonicalRight =>
      exact (canonical_carveAll canonicalLeft canonicalRight.ascending).1

private theorem has_ofRanges (items : List CodeRange) (code : UInt32) :
    (ofRanges items).has code = true ↔
      ∃ item ∈ items, (item.first ≤ code ∧ code ≤ item.last) ∨
        (item.last ≤ code ∧ code ≤ item.first) := by
  rw [(canonical_ofRanges items).has_eq, covers_ofRanges, covers, List.any_map, List.any_eq_true]
  exact exists_congr fun item => and_congr_right fun _ => CodeRange.has_spanning

theorem has_any (code : UInt32) : any.has code = true ↔ code ≤ maxCodePoint := by
  rw [valid_any.canonical.has_eq]
  show covers [⟨0, maxCodePoint⟩] code = true ↔ _
  rw [covers_cons, Bool.or_eq_true, CodeRange.has_iff]
  simp [covers]

/-- Sets built from ranges have the code points of the ranges, and unions and differences of sets
that can be built have the members that set algebra gives. -/
theorem has_recipe (items : List CodeRange) (left right : Recipe) (code : UInt32) :
    ((ofRanges items).has code = true ↔
      ∃ item ∈ items, (item.first ≤ code ∧ code ≤ item.last) ∨
        (item.last ≤ code ∧ code ≤ item.first)) ∧
    (any.has code = true ↔ code ≤ maxCodePoint) ∧
    empty.has code = false ∧
    ((left.set.union right.set).has code = true ↔
      left.set.has code = true ∨ right.set.has code = true) ∧
    ((left.set.minus right.set).has code = true ↔
      left.set.has code = true ∧ ¬ right.set.has code = true) := by
  refine ⟨has_ofRanges items code, has_any code, rfl, ?_, ?_⟩
  · rw [has_union left.canonical right.canonical, Bool.or_eq_true]
  · rw [has_minus left.canonical right.canonical, Bool.and_eq_true, Bool.not_eq_true',
      Bool.not_eq_true]

/-- A range that ends at the last code point of 32 bits loses only what a cut covers. -/
example : ((ofRanges [⟨0xFFFFFFFF, 0⟩]).minus (ofRanges [⟨1, 0xFFFFFFFE⟩])).ranges =
    [⟨0, 0⟩, ⟨0xFFFFFFFF, 0xFFFFFFFF⟩] := by
  decide

end CharSet

end ParametricGrammar
