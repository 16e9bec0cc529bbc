import Mathlib.Tactic.Common
import ParametricGrammar.CharSet
/-!
# Members of character sets

Bisection finds the range that has a code point whenever the ranges ascend.
-/

namespace ParametricGrammar

namespace CodeRange

theorem has_iff {range : CodeRange} {code : UInt32} :
    range.has code = true ↔ range.first ≤ code ∧ code ≤ range.last := by
  simp [has]

private theorem isBehind_iff {range : CodeRange} {code : UInt32} :
    range.isBehind code = true ↔ code ≤ range.last ∧ code < range.first := by
  simp [isBehind]

end CodeRange

namespace CharSet

/-- Ranges that are not empty and lie one behind the other. -/
def Ascending (ranges : List CodeRange) : Prop :=
  (∀ range ∈ ranges, range.first ≤ range.last) ∧
    ranges.Pairwise fun left right => left.last < right.first

instance (ranges : List CodeRange) : Decidable (Ascending ranges) :=
  inferInstanceAs (Decidable (_ ∧ _))

theorem Ascending.sublist {ranges some : List CodeRange} (ascending : Ascending ranges)
    (sublist : some.Sublist ranges) : Ascending some :=
  ⟨fun range member => ascending.1 range (sublist.subset member), ascending.2.sublist sublist⟩

theorem Ascending.head {range : CodeRange} {rest : List CodeRange}
    (ascending : Ascending (range :: rest)) :
    range.first ≤ range.last ∧ ∀ other ∈ rest, range.last < other.first :=
  ⟨ascending.1 range List.mem_cons_self, (List.pairwise_cons.mp ascending.2).1⟩

/-- Around a range of ascending ones, the others lie on their sides of it. -/
theorem Ascending.around {front rest : List CodeRange} {middle : CodeRange}
    (ascending : Ascending (front ++ middle :: rest)) :
    middle.first ≤ middle.last ∧ (∀ range ∈ front, range.last < middle.first) ∧
      ∀ range ∈ rest, middle.last < range.first := by
  obtain ⟨proper, apart⟩ := ascending
  obtain ⟨-, later, across⟩ := List.pairwise_append.mp apart
  exact ⟨proper _ (by simp), fun range member => across range member middle (by simp),
    (List.pairwise_cons.mp later).1⟩

private theorem mem_of_bisect {code : UInt32} {steps : Nat} {ranges : List CodeRange}
    {range : CodeRange} (found : bisect code steps ranges = some range) : range ∈ ranges := by
  fun_induction bisect code steps ranges with
  | case1 | case2 => cases found
  | case3 => simpa [eq_comm] using found
  | case4 => cases found
  | case5 _ ranges _ _ _ _ _ _ induction => exact List.mem_of_mem_take (induction found)
  | case6 _ ranges _ _ middle rest half _ induction =>
      exact List.mem_of_mem_drop (half ▸ induction found)

/-- Bisection never loses the range that has the code point. -/
theorem bisect_eq_some {code : UInt32} {steps : Nat} {ranges : List CodeRange} {range : CodeRange}
    (ascending : Ascending ranges) (long : ranges.length ≤ steps) (member : range ∈ ranges)
    (has : range.has code = true) : bisect code steps ranges = some range := by
  fun_induction bisect code steps ranges with
  | case1 => simp_all
  | case2 => cases member
  | case3 => simp_all
  | case4 steps ranges many single empty =>
      have positive := List.length_pos_of_mem member
      have short := List.drop_eq_nil_iff.mp empty
      omega
  | case5 steps ranges many single middle rest half behind induction =>
      have split : ranges.take (ranges.length / 2) ++ middle :: rest = ranges := by
        rw [← half, List.take_append_drop]
      obtain ⟨proper, -, later⟩ := (split ▸ ascending).around
      have some : ranges.length ≠ 0 ∧ ranges.length ≠ 1 :=
        ⟨fun none => many (List.length_eq_zero_iff.mp none), fun one => by
          obtain ⟨only, rfl⟩ := List.length_eq_one_iff.mp one
          exact single only rfl⟩
      refine induction (ascending.sublist (List.take_sublist _ _)) (by simp; omega) ?_
      rw [CodeRange.has_iff] at has
      rw [CodeRange.isBehind_iff] at behind
      rw [← split] at member
      rcases List.mem_append.mp member with early | late
      · exact List.take_subset_take_left _ (by omega) early
      · rcases List.mem_cons.mp late with rfl | late
        · exact absurd has.1 (UInt32.not_le.mpr behind.2)
        · have above := later range late
          simp only [UInt32.le_iff_toNat_le, UInt32.lt_iff_toNat_lt] at *
          omega
  | case6 steps ranges many single middle rest half ahead induction =>
      have split : ranges.take (ranges.length / 2) ++ middle :: rest = ranges := by
        rw [← half, List.take_append_drop]
      obtain ⟨proper, earlier, -⟩ := (split ▸ ascending).around
      have short : (middle :: rest).length = ranges.length - ranges.length / 2 := by
        rw [← half, List.length_drop]
      have some : ranges.length ≠ 1 := fun one => by
        obtain ⟨only, rfl⟩ := List.length_eq_one_iff.mp one
        exact single only rfl
      refine induction (ascending.sublist (half ▸ List.drop_sublist _ _)) ?_ ?_
      · simp only [List.length_cons] at *
        omega
      · rw [← split] at member
        rcases List.mem_append.mp member with early | late
        · refine absurd (CodeRange.isBehind_iff.mpr ?_) ahead
          have below := earlier range early
          rw [CodeRange.has_iff] at has
          simp only [UInt32.le_iff_toNat_le, UInt32.lt_iff_toNat_lt] at *
          omega
        · exact late

theorem has_eq_any {set : CharSet} (ascending : Ascending set.ranges) (code : UInt32) :
    set.has code = set.ranges.any (·.has code) := by
  rw [Bool.eq_iff_iff, List.any_eq_true, has, Option.any_eq_true]
  constructor
  · rintro ⟨range, found, has⟩
    exact ⟨range, mem_of_bisect found, has⟩
  · rintro ⟨range, member, has⟩
    exact ⟨range, bisect_eq_some ascending (Nat.le_refl _) member has, has⟩

theorem contains_range {first last : UInt32} (ordered : first ≤ last) (char : Char) :
    (ofRanges [⟨first, last⟩]).contains char = (first ≤ char.val && char.val ≤ last) := by
  simp [ofRanges, CodeRange.spanning, CodeRange.place, coalesce, contains, has, bisect,
    CodeRange.has, ordered]

theorem contains_single (code : UInt32) (char : Char) :
    (single code).contains char = decide (char.val = code) := by
  simp only [single, ofRanges, CodeRange.spanning, CodeRange.place, coalesce, contains, has,
    bisect, CodeRange.has, CodeRange.point, List.map_cons, List.map_nil, List.foldr_cons,
    List.foldr_nil, UInt32.le_refl, if_true, List.length_cons, List.length_nil, Option.any_some]
  rw [Bool.eq_iff_iff, Bool.and_eq_true, decide_eq_true_eq, decide_eq_true_eq, decide_eq_true_eq]
  exact ⟨fun both => UInt32.le_antisymm both.2 both.1, fun same => by simp [same]⟩

end CharSet

end ParametricGrammar
