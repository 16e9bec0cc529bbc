import ParametricGrammar.Proofs.CanonicalSets
import ParametricGrammar.Proofs.Dialect.PrintedLiterals
/-!
# Printed sets

A set is printed as a dot, as one of its ranges, or as a choice of them in a group. Each range is an
atom of the notation, so the whole is a body that is evaluated like the set, however many ranges
there are.
-/

namespace ParametricGrammar

/-! ### One character -/

private theorem Step.one_eq_matched_iff {may : Char → Bool} {cursor stop : Cursor} {memory : Memory}
    {nodes : List Tree} :
    (Step.one may cursor memory).1 = .matched nodes stop ↔
      nodes = [] ∧ ∃ char, cursor.Spans [char] stop ∧ may char = true := by
  simp only [← Cursor.next?_eq_some_iff, Step.one]
  cases cursor.next? with
  | none => simp
  | some step =>
      obtain ⟨char, after⟩ := step
      by_cases member : may char = true
      · simp only [member, if_true, Outcome.matched.injEq, Option.some.injEq, Prod.mk.injEq]
        constructor
        · rintro ⟨rfl, rfl⟩
          exact ⟨rfl, char, ⟨rfl, rfl⟩, member⟩
        · rintro ⟨rfl, _, ⟨rfl, rfl⟩, -⟩
          exact ⟨rfl, rfl⟩
      · simp [member]

namespace Setting

variable {setting : Setting} {source : List Char} {offset : ℕ} {parameters : Parameters}
  {set : CharSet} {memory : Memory}

/-- A set matches its members where they come next, and leaves no trees. -/
theorem parse_chars_eq_matched_iff {nodes : List Tree} {stop : Cursor} :
    (setting.parse source offset parameters (.chars set) memory).1 = .matched nodes stop ↔
      nodes = [] ∧ ∃ before char, source = before ++ char :: stop.rest ∧
        offset = byteLength before ∧ stop.before = char :: before.reverse ∧
          set.contains char = true := by
  have places : (setting.parse source offset parameters (.chars set) memory).1 =
      .matched nodes stop ↔ ∃ cursor, Cursor.at? source offset = some cursor ∧
        nodes = [] ∧ ∃ char, cursor.Spans [char] stop ∧ set.contains char = true := by
    rw [parse]
    cases Cursor.at? source offset with
    | none => simp
    | some cursor =>
        rw [Node.evaluate_chars, Step.one_eq_matched_iff]
        simp
  rw [places]
  constructor
  · rintro ⟨cursor, place, rfl, char, spans, member⟩
    obtain ⟨rfl, rfl⟩ := Cursor.at?_eq_some_iff.mp place
    refine ⟨rfl, cursor.before.reverse, char, ?_, ?_, ?_, member⟩
    · simp [Cursor.whole, spans.1]
    · rw [byteLength_reverse, cursor.offset_eq]
    · simp [spans.2]
  · rintro ⟨rfl, before, char, rfl, rfl, behind, member⟩
    let cursor : Cursor := ⟨before.reverse, char :: stop.rest, byteLength before, by simp⟩
    have place : Cursor.at? (before ++ char :: stop.rest) (byteLength before) = some cursor :=
      Cursor.at?_eq_some_iff.mpr ⟨by simp [cursor, Cursor.whole], rfl⟩
    exact ⟨cursor, place, rfl, char, ⟨rfl, behind⟩, member⟩

private theorem parse_chars_ne_failed (error : RunError) :
    (setting.parse source offset parameters (.chars set) memory).1 ≠ .failed error := by
  rw [parse]
  split
  · rw [Node.evaluate_chars, Step.one]
    split
    · split <;> exact nofun
    · exact nofun
  · exact nofun

end Setting

namespace Bnf

namespace Dialect

/-- A range is printed as an atom that is evaluated like it. -/
theorem worded_range {range : CodeRange} (ordered : range.first ≤ range.last)
    (valid : range.last ≤ CharSet.maxCodePoint) :
    Worded "atom" EndsAtom 0 (.chars ⟨[range]⟩) range.text.toList := by
  obtain ⟨phrase, written, flat, denotes⟩ := exists_phrase_range ordered valid
  exact ⟨phrase, written, flat.le, denotes ▸ .refl _⟩

/-- A set that is not empty is printed as a body that is evaluated like it. -/
theorem wordedBody_set {set : CharSet} (valid : set.Valid) (some : set.ranges ≠ []) :
    WordedBody 10 (.chars set) set.text.toList := by
  rw [CharSet.text]
  split
  · rename_i any
    subst any
    have dot : Worded "atom" EndsAtom 0 (.chars .any) ".".toList :=
      ⟨Atom.any, rfl, le_rfl, .refl _⟩
    exact dot.plain.body.mono (by decide)
  · obtain ⟨ranges⟩ := set
    have each : ∀ range ∈ ranges, Worded "atom" EndsAtom 0 (.chars ⟨[range]⟩) range.text.toList :=
      fun range member => worded_range (valid.canonical.1 range member)
        (valid.bounded range member)
    split
    · exact absurd ‹_› some
    · rename_i range only
      obtain rfl : ranges = [range] := only
      exact (each range List.mem_cons_self).plain.body.mono (by decide)
    · rw [toList_bracketed, toList_joined]
      have choice : WordedBody 4 (.first (ranges.map fun range => .chars ⟨[range]⟩))
          (together [' ', '|', ' '] ((ranges.map CodeRange.text).map String.toList)) := by
        refine Worded.choice (by simpa using some) ?_
        rw [List.map_map, List.forall₂_map_left_iff, List.forall₂_map_right_iff, List.forall₂_same]
        exact each
      obtain ⟨body, written, shallow, alike⟩ := choice
      have grouped : WordedBody 4 (.chars ⟨ranges⟩) body.chars :=
        ⟨body, rfl, shallow, alike.trans (likewise_ranges valid.canonical some).alike⟩
      exact written ▸ (Worded.group grouped).plain.body.mono (by decide)

end Dialect

end Bnf

open Bnf Dialect

namespace CharSet

/-- The set of a recipe is valid exactly if it has no code points above those of characters. -/
theorem Recipe.valid_iff {recipe : Recipe} :
    recipe.set.Valid ↔ ∀ code, recipe.set.has code = true → code ≤ maxCodePoint := by
  simp only [recipe.canonical.has_eq, covers_iff]
  constructor
  · rintro valid code ⟨range, member, has⟩
    exact UInt32.le_trans (CodeRange.has_iff.mp has).2 (valid.bounded range member)
  · intro bounded
    refine ⟨recipe.canonical, fun range member => bounded range.last ⟨range, member, ?_⟩⟩
    exact CodeRange.has_iff.mpr ⟨recipe.canonical.1 range member, UInt32.le_refl _⟩

/-- Printed sets compile back. What is printed for a set that the operations built from code points
of characters, and that has one, is compiled behind the head of a clause. In every grammar the body
matches at an offset exactly if a member of the set comes next; it then takes that character and
leaves no trees. Otherwise it is unmatched. -/
theorem set_compiles_back (recipe : Recipe) (some : ∃ code, recipe.set.has code = true)
    (bounded : ∀ code, recipe.set.has code = true → code ≤ maxCodePoint) :
    ∃ body, compile ("p ::= " ++ recipe.set.text) = .ok (.ofList [("p", { body := body })]) ∧
      ∀ (setting : Setting) (source : List Char) (offset : ℕ) (parameters : Parameters)
        (memory : Memory),
        let outcome := (setting.parse source offset parameters body memory).1
        (∀ nodes stop, outcome = .matched nodes stop ↔
          nodes = [] ∧ ∃ before char, source = before ++ char :: stop.rest ∧
            offset = byteLength before ∧ stop.before = char :: before.reverse ∧
              recipe.set.contains char = true) ∧
          ∀ error, outcome ≠ .failed error := by
  have valid : recipe.set.Valid := Recipe.valid_iff.mpr bounded
  have inhabited : recipe.set.ranges ≠ [] := by
    obtain ⟨code, member⟩ := some
    intro none
    rw [recipe.canonical.has_eq, none] at member
    cases member
  obtain ⟨body, compiles, alike⟩ :=
    exists_compile ((wordedBody_set valid inhabited).mono (by decide))
  refine ⟨body, compiles, fun setting source offset parameters memory => ?_⟩
  have same : setting.parse source offset parameters body memory =
      setting.parse source offset parameters (.chars recipe.set) memory := by
    simp only [Setting.parse, alike outside]
  rw [same]
  exact ⟨fun _ _ => Setting.parse_chars_eq_matched_iff, Setting.parse_chars_ne_failed⟩

/-- The lower-case letters but `e`, and `A`. -/
def lettersWithGap : Recipe :=
  .union (.minus (.ofRanges [⟨0x7A, 0x61⟩]) (.ofRanges [.point 0x65])) (.ofRanges [.point 0x41])

theorem set_compiles_back_letters :
    lettersWithGap.set.has 0x41 = true ∧ (∀ code, lettersWithGap.set.has code = true →
      code ≤ maxCodePoint) ∧ lettersWithGap.set.text = "( x41 | [x61-x64] | [x66-x7A] )" ∧
      ∃ body, compile "p ::= ( x41 | [x61-x64] | [x66-x7A] )" =
        .ok (.ofList [("p", { body := body })]) ∧
        ∀ (setting : Setting) (source : List Char) (offset : ℕ) (parameters : Parameters)
          (memory : Memory),
          let outcome := (setting.parse source offset parameters body memory).1
          (∀ nodes stop, outcome = .matched nodes stop ↔
            nodes = [] ∧ ∃ before char, source = before ++ char :: stop.rest ∧
              offset = byteLength before ∧ stop.before = char :: before.reverse ∧
                lettersWithGap.set.contains char = true) ∧
            ∀ error, outcome ≠ .failed error := by
  have member : lettersWithGap.set.has 0x41 = true := by decide
  have bounded : ∀ code, lettersWithGap.set.has code = true → code ≤ maxCodePoint :=
    Recipe.valid_iff.mp ⟨lettersWithGap.canonical, by decide⟩
  have printed : lettersWithGap.set.text = "( x41 | [x61-x64] | [x66-x7A] )" := by decide +kernel
  have whole : "p ::= ( x41 | [x61-x64] | [x66-x7A] )" = "p ::= " ++ lettersWithGap.set.text := by
    rw [printed]
    rfl
  rw [whole]
  exact ⟨member, bounded, printed, set_compiles_back lettersWithGap ⟨_, member⟩ bounded⟩

end CharSet

end ParametricGrammar
