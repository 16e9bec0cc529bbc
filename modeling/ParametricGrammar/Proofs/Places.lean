import Mathlib.Tactic.Common
import ParametricGrammar.Cursor
/-!
# The text between places

Two places of a text are related by the characters between them. Every motion of a cursor is
characterised by this relation, and a place is determined by its text and its byte offset.
-/

namespace ParametricGrammar

@[simp] theorem byteLength_append (left right : List Char) :
    byteLength (left ++ right) = byteLength left + byteLength right := by
  induction left with
  | nil => simp
  | cons char left induction =>
      rw [List.cons_append, byteLength_cons, byteLength_cons, induction, Nat.add_assoc]

@[simp] theorem byteLength_reverse (text : List Char) :
    byteLength text.reverse = byteLength text := by
  induction text with
  | nil => rfl
  | cons char text induction => simp [induction, Nat.add_comm]

theorem eq_nil_of_byteLength_eq_zero {text : List Char} (zero : byteLength text = 0) :
    text = [] := by
  cases text with
  | nil => rfl
  | cons char rest =>
      have positive := char.utf8Size_pos
      simp at zero
      omega

/-- Two cuts of one text at the same number of bytes are the same cut. -/
theorem eq_of_append_eq_of_byteLength_eq {left right leftRest rightRest : List Char}
    (same : left ++ leftRest = right ++ rightRest) (bytes : byteLength left = byteLength right) :
    left = right ∧ leftRest = rightRest := by
  induction left generalizing right with
  | nil =>
      have empty : right = [] := eq_nil_of_byteLength_eq_zero (by simpa using bytes.symm)
      subst empty
      exact ⟨rfl, same⟩
  | cons char left induction =>
      cases right with
      | nil => exact absurd (eq_nil_of_byteLength_eq_zero bytes) (by simp)
      | cons other right =>
          obtain ⟨rfl, tails⟩ := List.cons.inj same
          obtain ⟨rfl, rests⟩ := induction tails (by simpa using bytes)
          exact ⟨rfl, rests⟩

theorem splitBytes?_eq_some_iff {bytes : Nat} {before text first last : List Char} :
    splitBytes? bytes before text = some (first, last) ↔
      ∃ chars, text = chars ++ last ∧ first = chars.reverse ++ before ∧
        byteLength chars = bytes := by
  fun_induction splitBytes? bytes before text with
  | case1 before text =>
      constructor
      · rintro ⟨⟩
        exact ⟨[], by simp⟩
      · rintro ⟨chars, rfl, rfl, zero⟩
        simp [eq_nil_of_byteLength_eq_zero zero]
  | case2 before bytes =>
      constructor
      · rintro ⟨⟩
      · rintro ⟨chars, empty, -, count⟩
        obtain ⟨rfl, rfl⟩ := List.append_eq_nil_iff.mp empty.symm
        simp at count
  | case3 bytes before char rest fits induction =>
      rw [induction]
      constructor
      · rintro ⟨chars, rfl, rfl, count⟩
        refine ⟨char :: chars, by simp, by simp, ?_⟩
        rw [byteLength_cons, count]
        exact Nat.add_sub_of_le fits
      · rintro ⟨chars, whole, rfl, count⟩
        cases chars with
        | nil => simp at count
        | cons head chars =>
            obtain ⟨rfl, rfl⟩ := List.cons.inj whole
            simp only [byteLength_cons] at count
            exact ⟨chars, rfl, by simp, by omega⟩
  | case4 bytes before char rest large =>
      constructor
      · rintro ⟨⟩
      · rintro ⟨chars, whole, -, count⟩
        cases chars with
        | nil => simp at count
        | cons head chars =>
            obtain ⟨rfl, -⟩ := List.cons.inj whole
            simp only [byteLength_cons] at count
            omega

namespace Cursor

theorem ext {left right : Cursor} (before : left.before = right.before)
    (rest : left.rest = right.rest) : left = right := by
  obtain ⟨leftBefore, leftRest, leftOffset, leftEq⟩ := left
  obtain ⟨rightBefore, rightRest, rightOffset, rightEq⟩ := right
  simp only at before rest
  subst before rest leftEq rightEq
  rfl

/-- The text that a place belongs to. -/
def whole (cursor : Cursor) : List Char := cursor.before.reverse ++ cursor.rest

@[simp] theorem whole_start (text : List Char) : (start text).whole = text := rfl

@[simp] theorem offset_start (text : List Char) : (start text).offset = 0 := rfl

theorem byteLength_whole (cursor : Cursor) :
    byteLength cursor.whole = cursor.offset + byteLength cursor.rest := by
  simp [whole, cursor.offset_eq]

theorem offset_le_byteLength (cursor : Cursor) : cursor.offset ≤ byteLength cursor.whole := by
  rw [byteLength_whole]
  exact Nat.le_add_right _ _

/-- A place is determined by its text and its offset. -/
theorem eq_of_offset_eq {left right : Cursor} (whole : left.whole = right.whole)
    (offset : left.offset = right.offset) : left = right := by
  have bytes : byteLength left.before.reverse = byteLength right.before.reverse := by
    simpa [← left.offset_eq, ← right.offset_eq] using offset
  obtain ⟨before, rest⟩ := eq_of_append_eq_of_byteLength_eq whole bytes
  exact ext (List.reverse_inj.mp before) rest

theorem at?_eq_some_iff {text : List Char} {offset : Nat} {cursor : Cursor} :
    at? text offset = some cursor ↔ cursor.whole = text ∧ cursor.offset = offset := by
  have located : at? text offset = some cursor →
      cursor.whole = text ∧ cursor.offset = offset := by
    unfold at?
    split
    · rename_i before rest split
      rintro ⟨⟩
      obtain ⟨chars, rfl, rfl, -⟩ := splitBytes?_eq_some_iff.mp split
      exact ⟨by simp [whole], rfl⟩
    · rintro ⟨⟩
  refine ⟨located, ?_⟩
  rintro ⟨rfl, rfl⟩
  have split : splitBytes? cursor.offset [] cursor.whole = some (cursor.before, cursor.rest) :=
    splitBytes?_eq_some_iff.mpr
      ⟨cursor.before.reverse, rfl, by simp, by simp [cursor.offset_eq]⟩
  unfold at?
  split
  · rename_i before rest other
    obtain ⟨rfl, rfl⟩ := Prod.mk.inj (Option.some.inj (split.symm.trans other))
    rfl
  · rename_i other
    exact absurd (split.symm.trans other) (by simp)

/-- A place lies behind another one, with the given characters between them. -/
def Spans (first : Cursor) (chars : List Char) (last : Cursor) : Prop :=
  first.rest = chars ++ last.rest ∧ last.before = chars.reverse ++ first.before

theorem spans_nil_iff {first last : Cursor} : first.Spans [] last ↔ last = first := by
  constructor
  · rintro ⟨rest, before⟩
    exact ext (by simpa using before) (by simpa using rest.symm)
  · rintro rfl
    exact ⟨rfl, rfl⟩

theorem Spans.refl (cursor : Cursor) : cursor.Spans [] cursor := spans_nil_iff.mpr rfl

theorem Spans.trans {first middle last : Cursor} {left right : List Char}
    (spansLeft : first.Spans left middle) (spansRight : middle.Spans right last) :
    first.Spans (left ++ right) last :=
  ⟨by simp [spansLeft.1, spansRight.1], by simp [spansLeft.2, spansRight.2]⟩

theorem Spans.whole_eq {first last : Cursor} {chars : List Char}
    (spans : first.Spans chars last) : last.whole = first.whole := by
  simp [whole, spans.1, spans.2]

theorem Spans.offset_eq {first last : Cursor} {chars : List Char}
    (spans : first.Spans chars last) : last.offset = first.offset + byteLength chars := by
  simp [last.offset_eq, first.offset_eq, spans.2, Nat.add_comm]

theorem Spans.length_rest {first last : Cursor} {chars : List Char}
    (spans : first.Spans chars last) : first.rest.length = chars.length + last.rest.length := by
  simp [spans.1]

theorem Spans.chars_unique {first last : Cursor} {chars others : List Char}
    (spans : first.Spans chars last) (spansOther : first.Spans others last) : chars = others :=
  List.append_cancel_right (spans.1.symm.trans spansOther.1)

theorem Spans.unique {first last other : Cursor} {chars : List Char}
    (spans : first.Spans chars last) (spansOther : first.Spans chars other) : last = other :=
  ext (spans.2.trans spansOther.2.symm)
    (List.append_cancel_left (spans.1.symm.trans spansOther.1))

/-- Places that one character leads to, or leads back to, agree with that character. -/
theorem Spans.unique_char {first last other : Cursor} {char char' : Char}
    (spans : first.Spans [char] last) (spansOther : first.Spans [char'] other) :
    char = char' ∧ last = other := by
  have same : char = char' := by
    have heads := spans.1.symm.trans spansOther.1
    simp at heads
    exact heads.1
  subst same
  exact ⟨rfl, spans.unique spansOther⟩

theorem Spans.unique_back {first other last : Cursor} {char char' : Char}
    (spans : first.Spans [char] last) (spansOther : other.Spans [char'] last) :
    first = other := by
  have heads := spans.2.symm.trans spansOther.2
  simp at heads
  obtain ⟨rfl, before⟩ := heads
  exact ext before (spans.1.trans spansOther.1.symm)

/-- Every way of cutting what is ahead leads to a place. -/
theorem exists_spans {first : Cursor} {chars tail : List Char}
    (ahead : first.rest = chars ++ tail) :
    ∃ last, first.Spans chars last ∧ last.rest = tail :=
  ⟨{ before := chars.reverse ++ first.before
     rest := tail
     offset := byteLength (chars.reverse ++ first.before) }, ⟨ahead, rfl⟩, rfl⟩

/-- The characters between two places are the text between their offsets. -/
theorem Spans.slice?_eq {first last : Cursor} {chars : List Char} (spans : first.Spans chars last) :
    slice? first.whole first.offset last.offset = some chars := by
  have start : splitBytes? first.offset [] first.whole = some (first.before, first.rest) :=
    splitBytes?_eq_some_iff.mpr
      ⟨first.before.reverse, rfl, by simp, by simp [first.offset_eq]⟩
  have stop : splitBytes? (last.offset - first.offset) [] first.rest =
      some (chars.reverse, last.rest) :=
    splitBytes?_eq_some_iff.mpr ⟨chars, spans.1, by simp, by simp [spans.offset_eq]⟩
  have ordered : first.offset ≤ last.offset := by
    rw [spans.offset_eq]
    exact Nat.le_add_right _ _
  simp [slice?, ordered, start, stop]

theorem Spans.slice_eq {first last : Cursor} {chars : List Char} (spans : first.Spans chars last) :
    slice first.whole first.offset last.offset = String.ofList chars := by
  rw [slice, spans.slice?_eq, Option.getD_some]

/-- Every way of cutting the characters between two places goes through a place. -/
theorem Spans.exists_middle {first last : Cursor} {left right : List Char}
    (spans : first.Spans (left ++ right) last) :
    ∃ middle, first.Spans left middle ∧ middle.Spans right last := by
  obtain ⟨middle, spansLeft, rest⟩ := exists_spans (spans.1.trans (List.append_assoc _ _ _))
  exact ⟨middle, spansLeft, rest, by simp [spans.2, spansLeft.2]⟩

/-! ### Motions -/

theorem next?_eq_some_iff {cursor stop : Cursor} {char : Char} :
    cursor.next? = some (char, stop) ↔ cursor.Spans [char] stop := by
  unfold next?
  split
  · rename_i empty
    simp [Spans, empty]
  · rename_i head rest same
    constructor
    · rintro ⟨⟩
      exact ⟨same, rfl⟩
    · intro spans
      have heads := same.symm.trans spans.1
      simp at heads
      obtain ⟨rfl, rfl⟩ := heads
      simp only [Option.some.injEq, Prod.mk.injEq, true_and]
      exact ext (by simp [spans.2]) rfl

theorem next?_eq_none_iff {cursor : Cursor} : cursor.next? = none ↔ cursor.rest = [] := by
  unfold next?
  split <;> simp_all

theorem skip?_eq_some_iff {cursor stop : Cursor} {chars : List Char} :
    cursor.skip? chars = some stop ↔ cursor.Spans chars stop := by
  induction chars generalizing cursor with
  | nil =>
      simp only [skip?, Option.some.injEq]
      rw [spans_nil_iff]
      exact eq_comm
  | cons wanted chars induction =>
      unfold skip?
      split
      · rename_i char after same
        have step := next?_eq_some_iff.mp same
        by_cases equal : char = wanted
        · subst equal
          rw [if_pos rfl, induction]
          constructor
          · exact step.trans
          · rintro ⟨rest, before⟩
            have tail := step.1.symm.trans rest
            simp only [List.cons_append, List.nil_append, List.cons.injEq, true_and] at tail
            exact ⟨tail, by simp [before, step.2]⟩
        · rw [if_neg equal]
          constructor
          · rintro ⟨⟩
          · rintro ⟨rest, -⟩
            have heads := step.1.symm.trans rest
            simp at heads
            exact absurd heads.1 equal
      · rename_i none
        have empty := next?_eq_none_iff.mp none
        simp [Spans, empty]

theorem skip?_eq_none_iff {cursor : Cursor} {chars : List Char} :
    cursor.skip? chars = none ↔ ∀ stop, ¬ cursor.Spans chars stop := by
  rw [Option.eq_none_iff_forall_ne_some]
  simp [skip?_eq_some_iff]

theorem previous?_eq_some_iff {cursor before : Cursor} :
    cursor.previous? = some before ↔ ∃ char, before.Spans [char] cursor := by
  unfold previous?
  split
  · rename_i empty
    simp [Spans, empty]
  · rename_i char rest same
    constructor
    · rintro ⟨⟩
      exact ⟨char, rfl, same⟩
    · rintro ⟨other, spans⟩
      have heads := same.symm.trans spans.2
      simp at heads
      obtain ⟨rfl, tail⟩ := heads
      simp only [Option.some.injEq]
      exact ext tail (by simp [spans.1])

theorem previous?_eq_none_iff {cursor : Cursor} :
    cursor.previous? = none ↔ cursor.before = [] := by
  unfold previous?
  split <;> simp_all

end Cursor

end ParametricGrammar
