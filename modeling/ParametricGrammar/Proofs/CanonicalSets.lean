import ParametricGrammar.Bnf.Printer
import ParametricGrammar.Proofs.SetAlgebra
/-!
# Canonical sets

The first of canonical ranges starts at the least member and ends before the first code point that
is missing behind it. So the ranges can be read off the members, and whatever is asked or shown of
a set that the operations built depends on its members alone.
-/

namespace ParametricGrammar

namespace CharSet

variable {range other : CodeRange} {ranges others : List CodeRange} {code : UInt32}

/-! ### The first range -/

theorem covers_iff : covers ranges code = true ↔ ∃ range ∈ ranges, range.has code = true := by
  rw [covers, List.any_eq_true]

/-- What the later ranges have lies at least two above the end of the first one. -/
theorem Canonical.gap_of_covers (canonical : Canonical (range :: ranges))
    (covered : covers ranges code = true) : range.last.toNat + 1 < code.toNat := by
  obtain ⟨later, member, has⟩ := covers_iff.mp covered
  have gap := (List.pairwise_cons.mp canonical.2).1 later member
  have above := (has_iff_toNat.mp has).1
  omega

private theorem Canonical.first_le_last (canonical : Canonical (range :: ranges)) :
    range.first.toNat ≤ range.last.toNat :=
  UInt32.le_iff_toNat_le.mp (canonical.1 range List.mem_cons_self)

/-- A code point up to the gap behind the first range is covered if that range has it. -/
theorem Canonical.covers_near (canonical : Canonical (range :: ranges))
    (near : code.toNat ≤ range.last.toNat + 1) :
    covers (range :: ranges) code = range.has code := by
  have none : covers ranges code = false := by
    by_contra covered
    have gap := canonical.gap_of_covers (Bool.not_eq_false _ ▸ covered)
    omega
  rw [covers_cons, none, Bool.or_false]

private theorem Canonical.first_le_of_covers (canonical : Canonical (range :: ranges))
    (covered : covers (range :: ranges) code = true) : range.first.toNat ≤ code.toNat := by
  have proper := canonical.first_le_last
  rw [covers_cons, Bool.or_eq_true] at covered
  rcases covered with here | later
  · exact (has_iff_toNat.mp here).1
  · have gap := canonical.gap_of_covers later
    omega

private theorem Canonical.covers_first (canonical : Canonical (range :: ranges)) :
    covers (range :: ranges) range.first = true := by
  have proper := canonical.first_le_last
  rw [canonical.covers_near (by omega), has_iff_toNat]
  exact ⟨Nat.le_refl _, proper⟩

/-- Of two canonical lists with the same members that start alike, neither goes on for longer. -/
theorem Canonical.last_le_last (canonical : Canonical (range :: ranges))
    (canonicalOther : Canonical (other :: others))
    (same : ∀ code, covers (range :: ranges) code = covers (other :: others) code)
    (start : range.first = other.first) : other.last.toNat ≤ range.last.toNat := by
  by_contra longer
  have more : range.last < other.last := UInt32.lt_iff_toNat_lt.mpr (by omega)
  have next := toNat_add_one more
  have proper := canonical.first_le_last
  have covered : covers (other :: others) (range.last + 1) = true := by
    rw [canonicalOther.covers_near (by omega), has_iff_toNat, next, ← start]
    omega
  rw [← same, canonical.covers_near (by omega), has_iff_toNat, next] at covered
  omega

/-! ### Extensionality -/

/-- Canonical ranges with the same members are the same ranges. -/
theorem Canonical.eq_of_covers (canonical : Canonical ranges) (canonicalOther : Canonical others)
    (same : ∀ code, covers ranges code = covers others code) : ranges = others := by
  induction ranges generalizing others with
  | nil =>
      cases others with
      | nil => rfl
      | cons other others =>
          have covered := canonicalOther.covers_first
          rw [← same] at covered
          cases covered
  | cons range ranges induction =>
      cases others with
      | nil =>
          have covered := canonical.covers_first
          rw [same] at covered
          cases covered
      | cons other others =>
          have start : range.first = other.first := UInt32.toNat_inj.mp (Nat.le_antisymm
            (canonical.first_le_of_covers ((same _).trans canonicalOther.covers_first))
            (canonicalOther.first_le_of_covers ((same _).symm.trans canonical.covers_first)))
          have stop : range.last = other.last := UInt32.toNat_inj.mp (Nat.le_antisymm
            (canonicalOther.last_le_last canonical (fun code => (same code).symm) start.symm)
            (canonical.last_le_last canonicalOther same start))
          obtain rfl : range = other := by
            cases range
            cases other
            simp_all
          refine congrArg _ (induction canonical.tail canonicalOther.tail fun code => ?_)
          -- Up to the end of the common first range neither tail has anything.
          by_cases early : code.toNat ≤ range.last.toNat
          · have none {tail : List CodeRange} (apart : Canonical (range :: tail)) :
                covers tail code = false := by
              by_contra covered
              have gap := apart.gap_of_covers (Bool.not_eq_false _ ▸ covered)
              omega
            rw [none canonical, none canonicalOther]
          · have missed : range.has code = false := by
              rw [← Bool.not_eq_true, has_iff_toNat]
              omega
            simpa [covers_cons, missed] using same code

/-- Sets with canonical ranges and the same members are equal. -/
theorem Canonical.set_eq {left right : CharSet} (canonicalLeft : Canonical left.ranges)
    (canonicalRight : Canonical right.ranges) (same : ∀ code, left.has code = right.has code) :
    left = right := by
  have ranges := canonicalLeft.eq_of_covers canonicalRight fun code => by
    rw [← canonicalLeft.has_eq, ← canonicalRight.has_eq, same]
  cases left
  exact congrArg CharSet.mk ranges

private theorem Canonical.isEmpty_iff {set : CharSet} (canonical : Canonical set.ranges) :
    set.isEmpty = true ↔ ∀ code, set.has code = false := by
  constructor
  · intro none code
    rw [canonical.has_eq, List.isEmpty_iff.mp none]
    rfl
  · intro none
    rw [canonical.set_eq valid_empty.canonical fun code => (none code).trans rfl]
    rfl

private theorem canonical_point (code : UInt32) : Canonical [CodeRange.point code] :=
  ⟨by simp [CodeRange.point], by simp⟩

private theorem covers_point (code other : UInt32) :
    covers [CodeRange.point code] other = true ↔ other = code := by
  rw [covers_cons, Bool.or_eq_true, CodeRange.has_iff]
  simp only [CodeRange.point, covers, List.any_nil, Bool.false_eq_true, or_false]
  exact ⟨fun both => UInt32.le_antisymm both.2 both.1, fun same => by simp [same]⟩

private theorem single?_eq_some_iff {set : CharSet} :
    set.single? = some code ↔ set.ranges = [CodeRange.point code] := by
  unfold single?
  split
  · rename_i range only
    obtain ⟨first, last⟩ := range
    rw [only]
    simp only [CodeRange.point, List.cons.injEq, CodeRange.mk.injEq, and_true]
    split <;> grind
  · rename_i others
    exact iff_of_false (by simp) (others _)

private theorem Canonical.single?_iff {set : CharSet} (canonical : Canonical set.ranges) :
    set.single? = some code ↔ ∀ other, set.has other = true ↔ other = code := by
  rw [single?_eq_some_iff]
  constructor
  · intro only other
    rw [canonical.has_eq, only, covers_point]
  · intro only
    refine canonical.eq_of_covers (canonical_point code) fun other => ?_
    rw [Bool.eq_iff_iff, ← canonical.has_eq, only, covers_point]

/-- A set that the operations built has one form: its ranges are not empty and ascend, each
starting at least two above the end of the one before it. So sets with the same members are equal,
and which member is the only one, whether there is none and how the set is written depend on the
members alone. -/
theorem members_determine_set (left right : Recipe) :
    (∀ range ∈ left.set.ranges, range.first ≤ range.last) ∧
      left.set.ranges.Pairwise (fun range next => range.last.toNat + 2 ≤ next.first.toNat) ∧
      ((∀ code, left.set.has code = right.set.has code) →
        left.set = right.set ∧ left.set.single? = right.set.single? ∧
          left.set.isEmpty = right.set.isEmpty ∧ left.set.text = right.set.text) ∧
      (left.set.isEmpty = true ↔ ∀ code, left.set.has code = false) ∧
      ∀ code, left.set.single? = some code ↔
        ∀ other, left.set.has other = true ↔ other = code := by
  refine ⟨left.canonical.1, left.canonical.2, fun same => ?_, left.canonical.isEmpty_iff,
    fun code => left.canonical.single?_iff⟩
  have equal := left.canonical.set_eq right.canonical same
  exact ⟨equal, congrArg _ equal, congrArg _ equal, congrArg _ equal⟩

/-- Ranges that touch are joined, and a difference that gives back what a union added is the set
from before. -/
example : ((ofRanges [⟨65, 70⟩, ⟨71, 75⟩]).union (.single 90)).minus (.single 90) =
    ofRanges [⟨75, 65⟩] := by
  decide

end CharSet

end ParametricGrammar
