import ParametricGrammar.Proofs.CharSets
/-!
# Operations on character sets

The operations keep ranges canonical: they ascend with a gap between neighbours. On canonical ranges
they have the members that they promise.
-/

namespace ParametricGrammar

namespace CharSet

/-- Ranges that are not empty and ascend, each starting at least two above the end of the one
before it. -/
def Canonical (ranges : List CodeRange) : Prop :=
  (∀ range ∈ ranges, range.first ≤ range.last) ∧
    ranges.Pairwise fun left right => left.last.toNat + 1 < right.first.toNat

instance (ranges : List CodeRange) : Decidable (Canonical ranges) :=
  inferInstanceAs (Decidable (_ ∧ _))

theorem Canonical.ascending {ranges : List CodeRange} (canonical : Canonical ranges) :
    Ascending ranges := by
  refine ⟨canonical.1, canonical.2.imp fun gap => ?_⟩
  rw [UInt32.lt_iff_toNat_lt]
  omega

theorem Canonical.tail {range : CodeRange} {ranges : List CodeRange}
    (canonical : Canonical (range :: ranges)) : Canonical ranges :=
  ⟨fun other member => canonical.1 other (.tail _ member), (List.pairwise_cons.mp canonical.2).2⟩

/-- Ranges are canonical and end with a code point of a character. -/
structure Valid (set : CharSet) : Prop where
  canonical : Canonical set.ranges
  bounded : ∀ range ∈ set.ranges, range.last ≤ maxCodePoint

/-- Whether some range has a code point. -/
def covers (ranges : List CodeRange) (code : UInt32) : Bool := ranges.any (·.has code)

theorem Canonical.has_eq {set : CharSet} (canonical : Canonical set.ranges) (code : UInt32) :
    set.has code = covers set.ranges code :=
  has_eq_any canonical.ascending code

/-- Ranges that are not empty, ordered by where they start. -/
def Ordered (ranges : List CodeRange) : Prop :=
  (∀ range ∈ ranges, range.first ≤ range.last) ∧
    ranges.Pairwise fun left right => left.first ≤ right.first

/-! ### Ordering -/

private theorem mem_place {range other : CodeRange} {ranges : List CodeRange} :
    other ∈ range.place ranges ↔ other = range ∨ other ∈ ranges := by
  induction ranges with
  | nil => simp [CodeRange.place]
  | cons next rest induction =>
      rw [CodeRange.place]
      split
      · simp
      · simp only [List.mem_cons, induction]
        tauto

private theorem Ordered.place {range : CodeRange} {ranges : List CodeRange}
    (ordered : Ordered ranges) (proper : range.first ≤ range.last) :
    Ordered (range.place ranges) := by
  refine ⟨fun other member => ?_, ?_⟩
  · rcases mem_place.mp member with rfl | member
    · exact proper
    · exact ordered.1 other member
  · induction ranges with
    | nil => exact List.pairwise_singleton _ _
    | cons next rest induction =>
        obtain ⟨later, behind⟩ := List.pairwise_cons.mp ordered.2
        rw [CodeRange.place]
        split
        · rename_i precedes
          have below : range.first ≤ next.first := by
            simp only [CodeRange.precedes, Bool.or_eq_true, decide_eq_true_eq, Bool.and_eq_true,
              UInt32.lt_iff_toNat_lt, UInt32.le_iff_toNat_le] at precedes ⊢
            rcases precedes with less | ⟨same, -⟩
            · exact Nat.le_of_lt less
            · exact Nat.le_of_eq (congrArg _ same)
          refine List.pairwise_cons.mpr ⟨fun other member => ?_, ordered.2⟩
          rcases List.mem_cons.mp member with rfl | member
          · exact below
          · exact UInt32.le_trans below (later other member)
        · rename_i behindNext
          have above : next.first ≤ range.first := by
            simp only [CodeRange.precedes, Bool.or_eq_true, decide_eq_true_eq, not_or,
              UInt32.lt_iff_toNat_lt, UInt32.le_iff_toNat_le] at behindNext ⊢
            omega
          have rest := induction ⟨fun other member => ordered.1 other (.tail _ member), behind⟩
          refine List.pairwise_cons.mpr ⟨fun other member => ?_, rest⟩
          rcases mem_place.mp member with rfl | member
          · exact above
          · exact later other member

private theorem ordered_foldr_place {ranges : List CodeRange}
    (proper : ∀ range ∈ ranges, range.first ≤ range.last) :
    Ordered (ranges.foldr CodeRange.place []) := by
  induction ranges with
  | nil => exact ⟨fun _ member => absurd member List.not_mem_nil, .nil⟩
  | cons range ranges induction =>
      exact (induction fun other member => proper other (.tail _ member)).place
        (proper range List.mem_cons_self)

private theorem mem_foldr_place {range : CodeRange} {ranges : List CodeRange} :
    range ∈ ranges.foldr CodeRange.place [] ↔ range ∈ ranges := by
  induction ranges with
  | nil => rfl
  | cons first ranges induction => rw [List.foldr_cons, mem_place, induction, List.mem_cons]

/-! ### Joining -/

private theorem toNat_max (left right : UInt32) :
    (max left right).toNat = max left.toNat right.toNat := by
  show (if left ≤ right then right else left).toNat = _
  split
  · rename_i le
    rw [UInt32.le_iff_toNat_le] at le
    omega
  · rename_i less
    rw [UInt32.le_iff_toNat_le] at less
    omega

theorem has_iff_toNat {range : CodeRange} {code : UInt32} :
    range.has code = true ↔
      range.first.toNat ≤ code.toNat ∧ code.toNat ≤ range.last.toNat := by
  rw [CodeRange.has_iff, UInt32.le_iff_toNat_le, UInt32.le_iff_toNat_le]

/-- A range that overlaps or touches the next one, taken together with it. -/
theorem Ordered.join {current next : CodeRange} {rest : List CodeRange}
    (ordered : Ordered (current :: next :: rest)) :
    Ordered (⟨current.first, max current.last next.last⟩ :: rest) := by
  obtain ⟨later, behind⟩ := List.pairwise_cons.mp ordered.2
  refine ⟨fun range member => ?_, List.pairwise_cons.mpr
    ⟨fun range member => later range (.tail _ member), (List.pairwise_cons.mp behind).2⟩⟩
  rcases List.mem_cons.mp member with rfl | member
  · have proper := ordered.1 current List.mem_cons_self
    simp only [UInt32.le_iff_toNat_le, toNat_max] at proper ⊢
    omega
  · exact ordered.1 range (by simp [member])

private theorem has_join {current next : CodeRange} {code : UInt32}
    (start : current.first ≤ next.first) (touches : next.first.toNat ≤ current.last.toNat + 1) :
    CodeRange.has ⟨current.first, max current.last next.last⟩ code =
      (current.has code || next.has code) := by
  rw [UInt32.le_iff_toNat_le] at start
  rw [Bool.eq_iff_iff, Bool.or_eq_true, has_iff_toNat, has_iff_toNat, has_iff_toNat]
  simp only [toNat_max]
  omega

private theorem first_le_of_mem_coalesce {current : CodeRange} {rest : List CodeRange}
    (ordered : Ordered (current :: rest)) :
    ∀ range ∈ coalesce current rest, current.first ≤ range.first := by
  induction rest generalizing current with
  | nil =>
      intro range member
      obtain rfl := List.mem_singleton.mp member
      exact UInt32.le_refl _
  | cons next rest induction =>
      obtain ⟨later, behind⟩ := List.pairwise_cons.mp ordered.2
      rw [coalesce]
      split
      · exact induction ordered.join
      · intro range member
        rcases List.mem_cons.mp member with rfl | member
        · exact UInt32.le_refl _
        · have above := induction ⟨fun other among => ordered.1 other (.tail _ among), behind⟩ range
            member
          exact UInt32.le_trans (later next List.mem_cons_self) above

private theorem canonical_coalesce {current : CodeRange} {rest : List CodeRange}
    (ordered : Ordered (current :: rest)) : Canonical (coalesce current rest) := by
  induction rest generalizing current with
  | nil => exact ⟨fun range member => ordered.1 range member, List.pairwise_singleton _ _⟩
  | cons next rest induction =>
      have behind : Ordered (next :: rest) :=
        ⟨fun other among => ordered.1 other (.tail _ among), (List.pairwise_cons.mp ordered.2).2⟩
      rw [coalesce]
      split
      · exact induction ordered.join
      · rename_i apart
        obtain ⟨proper, pairwise⟩ := induction behind
        refine ⟨fun range member => ?_, List.pairwise_cons.mpr ⟨fun range member => ?_, pairwise⟩⟩
        · rcases List.mem_cons.mp member with rfl | member
          · exact ordered.1 range List.mem_cons_self
          · exact proper range member
        · have above := first_le_of_mem_coalesce behind range member
          rw [UInt32.le_iff_toNat_le] at above
          omega

private theorem last_le_of_mem_coalesce {limit : UInt32} {current : CodeRange}
    {rest : List CodeRange} (bounded : ∀ range ∈ current :: rest, range.last ≤ limit) :
    ∀ range ∈ coalesce current rest, range.last ≤ limit := by
  induction rest generalizing current with
  | nil => exact bounded
  | cons next rest induction =>
      obtain ⟨first, second, others⟩ : current.last ≤ limit ∧ next.last ≤ limit ∧
          ∀ range ∈ rest, range.last ≤ limit := by simpa using bounded
      rw [coalesce]
      split
      · refine induction fun range member => ?_
        rcases List.mem_cons.mp member with rfl | member
        · simp only [UInt32.le_iff_toNat_le, toNat_max] at first second ⊢
          omega
        · exact others range member
      · intro range member
        rcases List.mem_cons.mp member with rfl | member
        · exact first
        · exact induction (fun other among => bounded other (.tail _ among)) range member

private theorem covers_coalesce {current : CodeRange} {rest : List CodeRange} (code : UInt32)
    (ordered : Ordered (current :: rest)) :
    covers (coalesce current rest) code = (current.has code || covers rest code) := by
  induction rest generalizing current with
  | nil => rfl
  | cons next rest induction =>
      rw [coalesce]
      split
      · rename_i touches
        have start := (List.pairwise_cons.mp ordered.2).1 next List.mem_cons_self
        rw [induction ordered.join, has_join start touches, Bool.or_assoc]
        rfl
      · have behind : Ordered (next :: rest) :=
          ⟨fun other among => ordered.1 other (.tail _ among), (List.pairwise_cons.mp ordered.2).2⟩
        show (current.has code || covers (coalesce next rest) code) = _
        rw [induction behind]
        rfl

/-! ### Sets of ranges -/

private theorem first_le_last_spanning (left right : UInt32) :
    (CodeRange.spanning left right).first ≤ (CodeRange.spanning left right).last := by
  rw [CodeRange.spanning]
  split
  · assumption
  · rename_i other
    rw [UInt32.le_iff_toNat_le] at other
    simp only [UInt32.le_iff_toNat_le]
    omega

private theorem ordered_spanning (ranges : List CodeRange) :
    Ordered ((ranges.map fun range => CodeRange.spanning range.first range.last).foldr
      CodeRange.place []) := by
  refine ordered_foldr_place fun range member => ?_
  obtain ⟨original, -, rfl⟩ := List.mem_map.mp member
  exact first_le_last_spanning _ _

theorem canonical_ofRanges (ranges : List CodeRange) : Canonical (ofRanges ranges).ranges := by
  have ordered := ordered_spanning ranges
  simp only [ofRanges]
  split
  · exact ⟨by simp [empty], .nil⟩
  · rename_i first rest split
    exact canonical_coalesce (split ▸ ordered)

theorem valid_ofRanges {ranges : List CodeRange}
    (bounded : ∀ range ∈ ranges, range.first ≤ maxCodePoint ∧ range.last ≤ maxCodePoint) :
    (ofRanges ranges).Valid := by
  refine ⟨canonical_ofRanges ranges, ?_⟩
  have below : ∀ range ∈ (ranges.map fun range => CodeRange.spanning range.first
      range.last).foldr CodeRange.place [], range.last ≤ maxCodePoint := by
    intro range member
    obtain ⟨original, among, rfl⟩ := List.mem_map.mp (mem_foldr_place.mp member)
    rw [CodeRange.spanning]
    split
    · exact (bounded original among).2
    · exact (bounded original among).1
  simp only [ofRanges]
  split
  · simp [empty]
  · rename_i first rest split
    exact last_le_of_mem_coalesce (split ▸ below)

theorem covers_ofRanges (ranges : List CodeRange) (code : UInt32) :
    covers (ofRanges ranges).ranges code =
      covers (ranges.map fun range => CodeRange.spanning range.first range.last) code := by
  have ordered := ordered_spanning ranges
  have same : covers ((ranges.map fun range => CodeRange.spanning range.first range.last).foldr
      CodeRange.place []) code =
        covers (ranges.map fun range => CodeRange.spanning range.first range.last) code := by
    rw [Bool.eq_iff_iff, covers, covers, List.any_eq_true, List.any_eq_true]
    simp only [mem_foldr_place]
  rw [← same, ofRanges]
  split
  · rename_i none
    rw [none]
    rfl
  · rename_i first rest split
    rw [split] at ordered ⊢
    exact covers_coalesce code ordered

/-! ### Unions and differences -/

private theorem Valid.bounds {set : CharSet} (valid : set.Valid) :
    ∀ range ∈ set.ranges, range.first ≤ maxCodePoint ∧ range.last ≤ maxCodePoint :=
  fun range member => ⟨UInt32.le_trans (valid.canonical.1 range member)
    (valid.bounded range member), valid.bounded range member⟩

theorem Valid.union {left right : CharSet} (validLeft : left.Valid) (validRight : right.Valid) :
    (left.union right).Valid := by
  refine valid_ofRanges fun range member => ?_
  rcases List.mem_append.mp member with member | member
  · exact validLeft.bounds range member
  · exact validRight.bounds range member

/-- A union has the members of both sets. -/
theorem has_union {left right : CharSet} (canonicalLeft : Canonical left.ranges)
    (canonicalRight : Canonical right.ranges) (code : UInt32) :
    (left.union right).has code = (left.has code || right.has code) := by
  have proper : ∀ range ∈ left.ranges ++ right.ranges,
      CodeRange.spanning range.first range.last = range := by
    intro range member
    have ordered : range.first ≤ range.last := by
      rcases List.mem_append.mp member with member | member
      · exact canonicalLeft.1 range member
      · exact canonicalRight.1 range member
    rw [CodeRange.spanning, if_pos ordered]
  rw [union, (canonical_ofRanges _).has_eq, canonicalLeft.has_eq, canonicalRight.has_eq,
    covers_ofRanges, List.map_congr_left proper, List.map_id']
  exact List.any_append

theorem valid_single {code : UInt32} (bounded : code ≤ maxCodePoint) : (single code).Valid :=
  valid_ofRanges (by simpa [CodeRange.point] using bounded)

theorem valid_any : any.Valid := ⟨by decide, by decide⟩

theorem valid_empty : empty.Valid := ⟨by decide, by decide⟩

/-- Canonical pieces within a range. -/
structure Within (first last : UInt32) (pieces : List CodeRange) : Prop where
  canonical : Canonical pieces
  above : ∀ piece ∈ pieces, first ≤ piece.first
  below : ∀ piece ∈ pieces, piece.last ≤ last

namespace Within

variable {first last : UInt32} {pieces behind : List CodeRange}

private theorem nil : Within first last [] := ⟨by decide, by simp, by simp⟩

private theorem whole (proper : first ≤ last) : Within first last [⟨first, last⟩] :=
  ⟨⟨by simpa using proper, List.pairwise_singleton _ _⟩, by simp, by simp⟩

private theorem append {middle start : UInt32} (front : Within first middle pieces)
    (back : Within start last behind) (gap : middle.toNat + 1 < start.toNat)
    (above : first ≤ start) (below : middle ≤ last) : Within first last (pieces ++ behind) := by
  refine ⟨⟨fun piece member => ?_, List.pairwise_append.mpr
    ⟨front.canonical.2, back.canonical.2, fun left memberLeft right memberRight => ?_⟩⟩,
    fun piece member => ?_, fun piece member => ?_⟩
  · rcases List.mem_append.mp member with member | member
    · exact front.canonical.1 piece member
    · exact back.canonical.1 piece member
  · have ends := front.below left memberLeft
    have starts := back.above right memberRight
    rw [UInt32.le_iff_toNat_le] at ends starts
    omega
  · rcases List.mem_append.mp member with member | member
    · exact front.above piece member
    · exact UInt32.le_trans above (back.above piece member)
  · rcases List.mem_append.mp member with member | member
    · exact UInt32.le_trans (front.below piece member) below
    · exact back.below piece member

end Within

theorem toNat_add_one {low high : UInt32} (less : low < high) :
    (low + 1).toNat = low.toNat + 1 := by
  have bound := high.toNat_lt
  rw [UInt32.lt_iff_toNat_lt] at less
  rw [UInt32.toNat_add, UInt32.toNat_one]
  omega

private theorem toNat_sub_one {low high : UInt32} (less : low < high) :
    (high - 1).toNat = high.toNat - 1 := by
  rw [UInt32.lt_iff_toNat_lt] at less
  rw [UInt32.toNat_sub_of_le _ _ (by rw [UInt32.le_iff_toNat_le, UInt32.toNat_one]; omega),
    UInt32.toNat_one]

/-- What is left of a range lies in it, with at least what a cut took away between two pieces. -/
theorem within_carve {first last : UInt32} {cuts : List CodeRange} (proper : first ≤ last)
    (ascending : Ascending cuts) : Within first last (carve first last cuts) := by
  induction cuts generalizing first with
  | nil => simpa only [carve, if_pos proper] using Within.whole proper
  | cons cut cuts induction =>
      have properCut : cut.first ≤ cut.last := ascending.1 cut List.mem_cons_self
      have behind : Ascending cuts := ascending.sublist (List.sublist_cons_self cut cuts)
      have rest (more : cut.last < last) :
          Within (max first (cut.last + 1)) last (carve (max first (cut.last + 1)) last cuts) := by
        refine induction ?_ behind
        have next := toNat_add_one more
        simp only [UInt32.le_iff_toNat_le, UInt32.lt_iff_toNat_lt, toNat_max] at *
        omega
      have start : first ≤ max first (cut.last + 1) := by
        rw [UInt32.le_iff_toNat_le, toNat_max]
        exact Nat.le_max_left _ _
      rw [carve]
      split
      · simpa only [if_pos proper] using Within.whole proper
      · rename_i reaches
        by_cases kept : first < cut.first
        · have piece : Within first (cut.first - 1) [⟨first, cut.first - 1⟩] := by
            refine .whole ?_
            rw [UInt32.le_iff_toNat_le, toNat_sub_one kept]
            rw [UInt32.lt_iff_toNat_lt] at kept
            omega
          have inside : cut.first - 1 ≤ last := by
            rw [UInt32.le_iff_toNat_le, toNat_sub_one kept]
            simp only [UInt32.lt_iff_toNat_lt] at reaches
            omega
          rw [if_pos kept]
          split
          · rename_i more
            refine piece.append (rest more) ?_ start inside
            rw [toNat_max, toNat_sub_one kept, toNat_add_one more]
            rw [UInt32.le_iff_toNat_le] at properCut
            rw [UInt32.lt_iff_toNat_lt] at kept
            omega
          · exact ⟨piece.canonical, piece.above,
              fun other member => UInt32.le_trans (piece.below other member) inside⟩
        · simp only [if_neg kept, List.nil_append]
          split
          · rename_i more
            exact ⟨(rest more).canonical,
              fun other member => UInt32.le_trans start ((rest more).above other member),
              (rest more).below⟩
          · exact .nil

/-- What is left of canonical ranges is canonical and lies in them. -/
theorem canonical_carveAll {ranges cuts : List CodeRange} (canonical : Canonical ranges)
    (ascendingCuts : Ascending cuts) :
    Canonical (carveAll ranges cuts) ∧ ∀ piece ∈ carveAll ranges cuts,
      ∃ range ∈ ranges, range.first ≤ piece.first ∧ piece.last ≤ range.last := by
  induction ranges generalizing cuts with
  | nil => exact ⟨by simp [carveAll, Canonical], by simp [carveAll]⟩
  | cons range ranges induction =>
      have remaining : Ascending (cuts.dropWhile fun cut => cut.last < range.first) :=
        ascendingCuts.sublist (List.dropWhile_sublist _)
      have front := within_carve (canonical.1 range List.mem_cons_self) remaining
      have later := (List.pairwise_cons.mp canonical.2).1
      obtain ⟨⟨proper, pairwise⟩, inside⟩ := induction canonical.tail remaining
      rw [carveAll]
      refine ⟨⟨fun piece member => ?_, List.pairwise_append.mpr
        ⟨front.canonical.2, pairwise, fun left memberLeft right memberRight => ?_⟩⟩,
        fun piece member => ?_⟩
      · rcases List.mem_append.mp member with member | member
        · exact front.canonical.1 piece member
        · exact proper piece member
      · obtain ⟨other, among, starts, -⟩ := inside right memberRight
        have ends := front.below left memberLeft
        have gap := later other among
        rw [UInt32.le_iff_toNat_le] at starts ends
        omega
      · rcases List.mem_append.mp member with member | member
        · exact ⟨range, List.mem_cons_self, front.above piece member, front.below piece member⟩
        · obtain ⟨other, among, within⟩ := inside piece member
          exact ⟨other, .tail _ among, within⟩

theorem covers_cons (range : CodeRange) (ranges : List CodeRange) (code : UInt32) :
    covers (range :: ranges) code = (range.has code || covers ranges code) := rfl

private theorem covers_append (left right : List CodeRange) (code : UInt32) :
    covers (left ++ right) code = (covers left code || covers right code) := List.any_append

/-- Ranges that all start behind a code point do not have it. -/
theorem covers_eq_false_of_lt {ranges : List CodeRange} {code : UInt32}
    (behind : ∀ range ∈ ranges, code < range.first) : covers ranges code = false := by
  rw [covers, List.any_eq_false]
  intro range member has
  exact UInt32.not_le.mpr (behind range member) (CodeRange.has_iff.mp has).1

/-- The piece of a range before a cut. -/
theorem covers_before {first start code : UInt32} :
    covers (if first < start then [⟨first, start - 1⟩] else []) code = true ↔
      first.toNat ≤ code.toNat ∧ code.toNat < start.toNat := by
  split
  · rename_i less
    rw [covers_cons, Bool.or_eq_true, has_iff_toNat, toNat_sub_one less]
    rw [UInt32.lt_iff_toNat_lt] at less
    simp only [covers, List.any_nil, Bool.false_eq_true, or_false]
    omega
  · rename_i none
    rw [UInt32.lt_iff_toNat_lt] at none
    simp only [covers, List.any_nil, Bool.false_eq_true, false_iff]
    omega

/-- What is left of a range has the code points of the range that no cut has. -/
theorem covers_carve {first last : UInt32} {cuts : List CodeRange} (code : UInt32)
    (proper : first ≤ last) (ascending : Ascending cuts) :
    covers (carve first last cuts) code = true ↔
      CodeRange.has ⟨first, last⟩ code = true ∧ covers cuts code = false := by
  induction cuts generalizing first with
  | nil => simp [carve, proper, covers]
  | cons cut cuts induction =>
      obtain ⟨properCut, later⟩ := ascending.head
      -- The cuts that follow have nothing up to the end of this one.
      have spared (early : code.toNat ≤ cut.last.toNat) : covers cuts code = false :=
        covers_eq_false_of_lt fun other member =>
          UInt32.lt_of_le_of_lt (UInt32.le_iff_toNat_le.mpr early) (later other member)
      have missed : cut.has code = false ↔
          code.toNat < cut.first.toNat ∨ cut.last.toNat < code.toNat := by
        rw [← Bool.not_eq_true, has_iff_toNat]
        omega
      rw [covers_cons, Bool.or_eq_false_iff, missed, has_iff_toNat]
      rw [UInt32.le_iff_toNat_le] at proper properCut
      rw [carve]
      split
      · rename_i less
        rw [UInt32.lt_iff_toNat_lt] at less
        rw [if_pos (UInt32.le_iff_toNat_le.mpr proper), covers_cons, Bool.or_eq_true, has_iff_toNat]
        simp only [covers, List.any_nil, Bool.false_eq_true, or_false] at spared ⊢
        constructor
        · intro inside
          exact ⟨inside, .inl (by omega), spared (by omega)⟩
        · exact fun inside => inside.1
      · rename_i reaches
        rw [UInt32.lt_iff_toNat_lt] at reaches
        dsimp only
        split
        · rename_i more
          have start : (max first (cut.last + 1)).toNat =
              max first.toNat (cut.last.toNat + 1) := by
            rw [toNat_max, toNat_add_one more]
          rw [UInt32.lt_iff_toNat_lt] at more
          have rest := @induction (max first (cut.last + 1))
            (UInt32.le_iff_toNat_le.mpr (by omega))
            (ascending.sublist (List.sublist_cons_self cut cuts))
          simp only [has_iff_toNat, start] at rest
          rw [covers_append, Bool.or_eq_true, covers_before, rest]
          constructor
          · rintro (before | ⟨inside, none⟩)
            · exact ⟨by omega, .inl before.2, spared (by omega)⟩
            · exact ⟨by omega, .inr (by omega), none⟩
          · rintro ⟨inside, before | behind, none⟩
            · exact .inl ⟨inside.1, before⟩
            · exact .inr ⟨by omega, none⟩
        · rename_i ends
          rw [UInt32.lt_iff_toNat_lt] at ends
          rw [covers_before]
          constructor
          · intro before
            exact ⟨by omega, .inl before.2, spared (by omega)⟩
          · rintro ⟨inside, before | behind, -⟩
            · exact ⟨inside.1, before⟩
            · omega

/-- The cuts that a range lies behind take nothing from it, nor from what follows it. -/
theorem covers_dropWhile {cuts : List CodeRange} {start code : UInt32} (above : start ≤ code) :
    covers (cuts.dropWhile fun cut => cut.last < start) code = covers cuts code := by
  induction cuts with
  | nil => rfl
  | cons cut cuts induction =>
      rw [List.dropWhile_cons]
      split
      · rename_i ended
        have missed : cut.has code = false := by
          rw [← Bool.not_eq_true, CodeRange.has_iff]
          intro inside
          exact UInt32.not_le.mpr (of_decide_eq_true ended) (UInt32.le_trans above inside.2)
        rw [induction, covers_cons, missed, Bool.false_or]
      · rfl

/-- What is left of ascending ranges has the code points of theirs that no cut has. -/
theorem covers_carveAll {ranges cuts : List CodeRange} (code : UInt32)
    (ascending : Ascending ranges) (ascendingCuts : Ascending cuts) :
    covers (carveAll ranges cuts) code = true ↔
      covers ranges code = true ∧ covers cuts code = false := by
  induction ranges generalizing cuts with
  | nil => simp [carveAll, covers]
  | cons range ranges induction =>
      obtain ⟨proper, later⟩ := ascending.head
      have remaining : Ascending (cuts.dropWhile fun cut => cut.last < range.first) :=
        ascendingCuts.sublist (List.dropWhile_sublist _)
      rw [carveAll, covers_append, Bool.or_eq_true, covers_carve code proper remaining,
        induction (ascending.sublist (List.sublist_cons_self range ranges)) remaining, covers_cons,
        Bool.or_eq_true, ← or_and_right]
      by_cases above : range.first ≤ code
      · rw [covers_dropWhile above]
      · -- A code point before the range is in neither side.
        have none : covers ranges code = false :=
          covers_eq_false_of_lt fun other member =>
            UInt32.lt_trans (UInt32.lt_of_lt_of_le (UInt32.not_le.mp above) proper)
              (later other member)
        simp [none, CodeRange.has, above]

/-- A difference has the members of the first set that the second one does not have. -/
theorem has_minus {left right : CharSet} (canonicalLeft : Canonical left.ranges)
    (canonicalRight : Canonical right.ranges) (code : UInt32) :
    (left.minus right).has code = (left.has code && !right.has code) := by
  have canonical := (canonical_carveAll canonicalLeft canonicalRight.ascending).1
  rw [Bool.eq_iff_iff, minus, Canonical.has_eq canonical, Bool.and_eq_true, Bool.not_eq_true',
    canonicalLeft.has_eq, canonicalRight.has_eq]
  exact covers_carveAll code canonicalLeft.ascending canonicalRight.ascending

theorem Valid.minus {left right : CharSet} (validLeft : left.Valid) (validRight : right.Valid) :
    (left.minus right).Valid := by
  obtain ⟨canonical, inside⟩ :=
    canonical_carveAll validLeft.canonical validRight.canonical.ascending
  refine ⟨canonical, fun piece member => ?_⟩
  obtain ⟨range, among, -, below⟩ := inside piece member
  exact UInt32.le_trans below (validLeft.bounded range among)

end CharSet

end ParametricGrammar
