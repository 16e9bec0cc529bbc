import Mathlib.Data.List.Forall2
import ParametricGrammar.Proofs.Dialect.Readings
/-!
# Rows and alternatives

Operands of differences, parts of rows and alternatives are texts one after the other, read by a
repeated step each. Alternatives in brackets are atoms again.
-/

namespace ParametricGrammar

namespace Bnf

namespace Dialect

variable {depth nesting : ℕ} {chars rest : List Char} {name : String} {stands : Stands}

/-! ### Rows of texts -/

/-- The trees of a name among some stand for given items, one by one. -/
def Stood (name : String) (items : List Item) : Leaves := fun source trees =>
  List.Forall₂ (fun tree item => item.stands source tree)
    (trees.filter fun tree => tree.name = name) items

namespace Stood

variable {source : List Char} {trees : List Tree}

theorem append {before behind : List Tree} {left right : List Item}
    (stoodLeft : Stood name left source before) (stoodRight : Stood name right source behind) :
    Stood name (left ++ right) source (before ++ behind) := by
  unfold Stood at *
  rw [List.filter_append]
  exact List.rel_append stoodLeft stoodRight

theorem of_named {other : String} (holds : named other source trees) (apart : other ≠ name) :
    Stood name [] source trees := by
  have none : (trees.filter fun tree => tree.name = name) = [] := by
    rw [List.filter_eq_nil_iff]
    intro tree member
    simpa [holds tree member] using apart
  unfold Stood
  rw [none]
  exact .nil

theorem of_one {item : Item} (holds : one name item.stands source trees) :
    Stood name [item] source trees := by
  obtain ⟨tree, rfl, named, stands⟩ := holds
  simpa [Stood, named] using stands

end Stood

/-- Texts one after the other, each behind what comes before it. -/
def written (before : List Char) (items : List Item) : List Char :=
  items.flatMap fun item => before ++ item.chars

section

variable {kind : String} {ends : List Char → Prop} {before : List Char} {items : List Item}

theorem ends_written (continues : ∀ item ∈ items, ∀ tail, ends (before ++ item.chars ++ tail))
    (last : ends rest) : ends (written before items ++ rest) := by
  cases items with
  | nil => exact last
  | cons item items =>
      have split : written before (item :: items) ++ rest =
          before ++ item.chars ++ (written before items ++ rest) := by
        simp [written]
      rw [split]
      exact continues item List.mem_cons_self _

/-- A repeated step takes all texts of a row. -/
theorem takes_written {step : Node} (some : before ≠ [])
    (continues : ∀ item ∈ items, ∀ tail, ends (before ++ item.chars ++ tail))
    (takes : ∀ item ∈ items, ∀ rest, ends rest →
      Takes depth step (before ++ item.chars) rest (Stood kind [item]))
    (stops : Refuses depth step rest) (last : ends rest) :
    Takes depth (.zeroOrMore step) (written before items) rest (Stood kind items) := by
  induction items with
  | nil =>
      refine stops.zeroOrMore.imp fun source trees none => ?_
      obtain rfl : trees = [] := none
      exact .nil
  | cons item items induction =>
      have later := fun other member => continues other (List.mem_cons_of_mem item member)
      have tail := induction later fun other member => takes other (List.mem_cons_of_mem _ member)
      have head := takes item List.mem_cons_self _ (ends_written later last)
      refine (head.zeroOrMore (by simp [some]) tail).imp fun source trees holds => ?_
      obtain ⟨left, right, rfl, one, others⟩ := holds
      exact Stood.append one others

end

/-! ### Differences -/

/-- What excludes a further operand. -/
def exclusion : Node :=
  .sequence [.call "s-ignorable", .literal "-", .call "s-ignorable", .call "quantified"]

private theorem takes_exclusion {operand : Item}
    (reads : Reads "quantified" Apart nesting operand.chars operand.stands)
    (deep : nesting ≤ depth) (apart : Apart rest) :
    Takes (depth + 8) exclusion ([' ', '-', ' '] ++ operand.chars) rest
      (Stood "quantified" [operand]) := by
  have row : Takes (depth + 8) exclusion ([' '] ++ (['-'] ++ ([' '] ++ operand.chars))) rest _ :=
    (takes_space rfl).andThen ((takes_literal "-" rfl).andThen (reads.takes_space.andThen
      ((reads.takes deep apart).last)))
  simp only [silent_andThen] at row
  refine row.imp fun source trees holds => ?_
  obtain ⟨left, _, rfl, blanks, middle, right, rfl, more, one⟩ := holds
  exact Stood.append (.of_named blanks (by decide))
    (Stood.append (.of_named more (by decide)) (.of_one one))

private theorem refuses_exclusion (ends : EndsDifference rest) :
    Refuses (depth + 8) exclusion rest := by
  have minus : Refuses (depth + 8) (.literal "-") (visible rest) :=
    refuses_literal "-" '-' rfl ends.2
  exact (ends.1.takes_blanks.refuses minus.sequence).of_eq (takeWhile_append_visible rest).symm

private theorem apart_exclusion (operand : Item) (tail : List Char) :
    Apart ([' ', '-', ' '] ++ operand.chars ++ tail) :=
  apart_blank rfl rfl (by decide)

/-- Operands, the later ones excluded from the first. -/
theorem Reads.difference {first : Item} {excluded : List Item}
    (each : ∀ operand ∈ first :: excluded,
      Reads "quantified" Apart nesting operand.chars operand.stands) :
    Reads "difference" EndsDifference (nesting + 1)
      (first.chars ++ written [' ', '-', ' '] excluded) fun source tree =>
        Stood "quantified" (first :: excluded) source tree.content where
  opens := by
    obtain ⟨char, more, same, opens⟩ := (each first List.mem_cons_self).opens
    exact ⟨char, _, by rw [same]; rfl, opens⟩
  takes {depth rest} deep ends := by
    cases depth with
    | zero => exact absurd deep (Nat.not_succ_le_zero _)
    | succ depth =>
        have deep := Nat.le_of_succ_le_succ deep
        have next : Apart (written [' ', '-', ' '] excluded ++ rest) :=
          ends_written (fun operand _ => apart_exclusion operand) ends.1
        have head := (each first List.mem_cons_self).takes deep next
        have tail := takes_written (by simp) (fun operand _ => apart_exclusion operand)
          (fun operand member _ => takes_exclusion (each operand (.tail _ member)) deep)
          (refuses_exclusion ends) ends.1
        refine ((head.andThen tail.last).call "difference" (by simp [rules, exclusion])).translate
          fun source tree _ _ inside => ?_
        obtain ⟨left, right, split, one, others⟩ := inside
        exact split ▸ Stood.append (.of_one one) others
  noHead ends := ((each first List.mem_cons_self).noHead
    (ends_written (fun operand _ => apart_exclusion operand) ends.1)).of_eq
      (List.append_assoc _ _ _)

/-! ### Rows of parts -/

/-- What takes a further part of a row. -/
def continuation : Node :=
  .sequence [.call "s-ignorable", .notAhead (.call "production-head"), .call "difference"]

private theorem takes_continuation {part : Item}
    (reads : Reads "difference" EndsDifference nesting part.chars part.stands)
    (deep : nesting ≤ depth) (ends : EndsDifference rest) :
    Takes (depth + 8) continuation ([' '] ++ part.chars) rest (Stood "difference" [part]) := by
  have row : Takes (depth + 8) continuation ([' '] ++ ([] ++ part.chars)) rest _ :=
    reads.takes_space.andThen ((reads.noHead ends).notAhead.andThen (reads.takes deep ends).last)
  simp only [silent_andThen] at row
  refine row.imp fun source trees holds => ?_
  obtain ⟨left, right, rfl, blanks, one⟩ := holds
  exact Stood.append (.of_named blanks (by decide)) (.of_one one)

private theorem refuses_continuation (ends : EndsSequence rest) :
    Refuses (depth + 8) continuation rest := by
  refine (ends.1.takes_blanks.refuses ?_).of_eq (takeWhile_append_visible rest).symm
  rcases ends.2 with closing | clause
  · have signs : ∀ char ∈ (visible rest).head?, opensAtom char = false ∧ char.isAlpha = false ∧
        char ≠ '[' := by
      intro char member
      have sign := closing char member
      simp only [List.mem_cons, List.not_mem_nil, or_false] at sign
      rcases sign with rfl | rfl | rfl <;> decide
    have noHead : Refuses (depth + 8) (.call "production-head") (visible rest) :=
      refuses_head (fun char member => (signs char member).2.1)
        fun bracket => absurd rfl (signs _ bracket).2.2
    have noPart : Refuses (depth + 8) (.call "difference") (visible rest) :=
      refuses_difference fun char member => (signs char member).1
    exact (noHead.notAhead.refuses noPart.sequence)
  · obtain ⟨head, tail, same, takes⟩ := clause.takes depth
    rw [same]
    exact takes.notAhead.sequence

private theorem ends_continuation {part : Item}
    (reads : Reads "difference" EndsDifference nesting part.chars part.stands)
    (tail : List Char) : EndsDifference ([' '] ++ part.chars ++ tail) := by
  obtain ⟨char, more, same, opens⟩ := reads.opens
  obtain ⟨plain, others⟩ := plain_of_opensAtom opens
  simp only [List.mem_cons, not_or] at others
  rw [same]
  refine ⟨apart_blank rfl plain others.1, ?_⟩
  change (visible (' ' :: char :: (more ++ tail))).head? ≠ _
  rw [visible_blank rfl plain]
  simpa using others.2.1

/-- Parts of a row. -/
theorem Reads.sequence {first : Item} {more : List Item}
    (each : ∀ part ∈ first :: more,
      Reads "difference" EndsDifference nesting part.chars part.stands) :
    Reads "sequence" EndsSequence (nesting + 1) (first.chars ++ written [' '] more)
      fun source tree => Stood "difference" (first :: more) source tree.content where
  opens := by
    obtain ⟨char, tail, same, opens⟩ := (each first List.mem_cons_self).opens
    exact ⟨char, _, by rw [same]; rfl, opens⟩
  takes {depth rest} deep ends := by
    cases depth with
    | zero => exact absurd deep (Nat.not_succ_le_zero _)
    | succ depth =>
        have deep := Nat.le_of_succ_le_succ deep
        have continues := fun part member => ends_continuation (each part (.tail first member))
        have head := (each first List.mem_cons_self).takes deep
          (ends_written continues ends.difference)
        have tail := takes_written (by simp) continues
          (fun part member _ => takes_continuation (each part (.tail _ member)) deep)
          (refuses_continuation ends) ends.difference
        refine ((head.andThen tail.last).call "sequence" (by simp [rules, continuation])).translate
          fun source tree _ _ inside => ?_
        obtain ⟨left, right, split, one, others⟩ := inside
        exact split ▸ Stood.append (.of_one one) others
  noHead ends := ((each first List.mem_cons_self).noHead (ends_written
    (fun part member => ends_continuation (each part (.tail first member))) ends.difference)).of_eq
      (List.append_assoc _ _ _)

/-! ### Alternatives -/

/-- Alternatives are taken behind a space, at any depth that leaves room for their nesting, and
their tree stands for something. -/
structure ReadsBody (nesting : ℕ) (chars : List Char) (stands : Stands) : Prop where
  takes : ∀ {depth : ℕ} {rest : List Char}, nesting ≤ depth → EndsAlternation rest →
    Takes (depth + 8) (.call "alternation") (' ' :: chars) rest (one "alternation" stands)

theorem ReadsBody.imp {others : Stands} (reads : ReadsBody nesting chars stands)
    (implies : ∀ source tree, tree.name = "alternation" → stands source tree →
      others source tree) : ReadsBody nesting chars others := by
  refine ⟨fun deep ends => (reads.takes deep ends).imp fun source trees found => ?_⟩
  obtain ⟨tree, rfl, kind, holds⟩ := found
  exact ⟨tree, rfl, kind, implies source tree kind holds⟩

/-- What takes a further alternative. -/
def alternative : Node :=
  .sequence [.call "s-ignorable", .literal "|", .call "s-ignorable", .call "sequence"]

private theorem takes_alternative {row : Item}
    (reads : Reads "sequence" EndsSequence nesting row.chars row.stands)
    (deep : nesting ≤ depth) (ends : EndsSequence rest) :
    Takes (depth + 8) alternative ([' ', '|', ' '] ++ row.chars) rest
      (Stood "sequence" [row]) := by
  have parts : Takes (depth + 8) alternative ([' '] ++ (['|'] ++ ([' '] ++ row.chars))) rest _ :=
    (takes_space rfl).andThen ((takes_literal "|" rfl).andThen (reads.takes_space.andThen
      (reads.takes deep ends).last))
  simp only [silent_andThen] at parts
  refine parts.imp fun source trees holds => ?_
  obtain ⟨left, _, rfl, blanks, middle, right, rfl, more, one⟩ := holds
  exact Stood.append (.of_named blanks (by decide))
    (Stood.append (.of_named more (by decide)) (.of_one one))

private theorem refuses_alternative (ends : EndsAlternation rest) :
    Refuses (depth + 8) alternative rest := by
  have bar : Refuses (depth + 8) (.literal "|") (visible rest) :=
    refuses_literal "|" '|' rfl ends.2
  exact (ends.1.1.takes_blanks.refuses bar.sequence).of_eq (takeWhile_append_visible rest).symm

private theorem ends_alternative (row : Item) (tail : List Char) :
    EndsSequence ([' ', '|', ' '] ++ row.chars ++ tail) := by
  refine ⟨apart_blank rfl rfl (by decide), .inl fun char member => ?_⟩
  change char ∈ (visible (' ' :: '|' :: (' ' :: row.chars ++ tail))).head? at member
  rw [visible_blank rfl rfl] at member
  obtain rfl : '|' = char := by simpa using member
  simp

/-- Alternatives. -/
theorem ReadsBody.alternation {first : Item} {more : List Item}
    (each : ∀ row ∈ first :: more,
      Reads "sequence" EndsSequence nesting row.chars row.stands) :
    ReadsBody (nesting + 1) (first.chars ++ written [' ', '|', ' '] more) fun source tree =>
      Stood "sequence" (first :: more) source tree.content where
  takes {depth rest} deep ends := by
    cases depth with
    | zero => exact absurd deep (Nat.not_succ_le_zero _)
    | succ depth =>
        have deep := Nat.le_of_succ_le_succ deep
        have reads := each first List.mem_cons_self
        have next : EndsSequence (written [' ', '|', ' '] more ++ rest) :=
          ends_written (fun row _ => ends_alternative row) ends.1
        have head := reads.takes deep next
        have tail := takes_written (by simp) (fun row _ => ends_alternative row)
          (fun row member _ => takes_alternative (each row (.tail _ member)) deep)
          (refuses_alternative ends) ends.1
        have lead : Takes (depth + 8) (.call "s-ignorable") [' ']
            (first.chars ++ written [' ', '|', ' '] more ++ rest) (named "s-ignorable") :=
          reads.takes_space.of_rest (List.append_assoc _ _ _)
        refine ((lead.andThen (head.andThen tail.last)).call "alternation"
          (by simp [rules, alternative])).translate fun source tree _ _ inside => ?_
        obtain ⟨blanks, _, split, space, left, right, rfl, one, others⟩ := inside
        rw [split]
        exact Stood.append (.of_named space (by decide)) (Stood.append (.of_one one) others)

/-- A closing sign ends alternatives. -/
theorem ends_closing {sign : Char} (closing : sign = ')' ∨ sign = ']') (tail : List Char) :
    EndsAlternation (' ' :: sign :: tail) := by
  have plain : opensIgnorable sign = false := by rcases closing with rfl | rfl <;> rfl
  refine ⟨⟨apart_blank rfl plain (by rcases closing with rfl | rfl <;> decide), .inl ?_⟩, ?_⟩
  · intro char member
    rw [visible_blank rfl plain] at member
    obtain rfl : sign = char := by simpa using member
    rcases closing with rfl | rfl <;> simp
  · rw [visible_blank rfl plain]
    rcases closing with rfl | rfl <;> simp

/-- Alternatives in a group. -/
theorem Reads.group (inside : ReadsBody nesting chars stands) :
    Reads "atom" EndsAtom (nesting + 2) ('(' :: ' ' :: (chars ++ [' ', ')']))
      (Sole "group" fun source tree =>
        ∃ body, tree.child? "alternation" = some body ∧ stands source body) where
  opens := ⟨'(', _, rfl, by decide⟩
  takes {depth rest} deep _ := by
    obtain ⟨depth, rfl⟩ := Nat.exists_eq_add_of_le' ((Nat.le_add_left 2 _).trans deep)
    refine takes_atom [.call "lookaround", .call "special"] "group" rfl ?_ ?_
    · simp only [List.forall_mem_cons, List.not_mem_nil, false_imp_iff, implies_true, and_true]
      exact ⟨refuses_lookaround (by simp), refuses_special (by simp)⟩
    · have row : Takes (depth + 8) _ (['('] ++ (' ' :: chars ++ ([' '] ++ [')']))) rest _ :=
        (takes_literal "(" rfl).andThen
          ((inside.takes (Nat.le_of_add_le_add_right deep) (ends_closing (.inl rfl) rest)).andThen
            ((Dialect.takes_space rfl).andThen (takes_literal ")" rfl).last))
      simp only [silent_andThen, andThen_silent] at row
      refine ((row.of_eq (by simp)).call "group" (by simp [rules])).translate
        fun source tree _ _ within => ?_
      obtain ⟨_, blanks, split, ⟨body, rfl, label, holds⟩, -⟩ := within
      exact ⟨body, by simp [Tree.child?, split, label], holds⟩
  noHead _ := refuses_head (by simp) (by simp)

/-! ### Lookarounds -/

/-- A way to look around. -/
inductive Look where
  | negative | positive | behind
deriving DecidableEq

namespace Look

/-- The production that the word of a lookaround is read with. -/
def kind : Look → String
  | negative => "lookahead-negative"
  | positive => "lookahead-positive"
  | behind => "lookbehind-positive"

/-- How the word of a lookaround starts. -/
def stem : Look → String
  | negative | positive => "lookahead"
  | behind => "lookbehind"

/-- The sign behind the word of a lookaround. -/
def sign : Look → Char
  | negative => '≠'
  | positive | behind => '='

/-- How the word of a lookaround is written. -/
def word (look : Look) : List Char := look.stem.toList ++ [' ', look.sign]

/-- The way to look ahead for something, or for its absence. -/
def ahead (positive : Bool) : Look := if positive then .positive else .negative

end Look

/-- The words of lookarounds. -/
def lookWords : Node :=
  .first [.call "lookahead-negative", .call "lookahead-positive", .call "lookbehind-positive"]

private theorem takes_lookWord (look : Look) :
    Takes (depth + 3) lookWords look.word rest (one look.kind fun _ _ => True) := by
  have ahead : ∀ tail, Takes (depth + 2) (.literal "lookahead")
      ['l', 'o', 'o', 'k', 'a', 'h', 'e', 'a', 'd'] tail silent := fun _ => takes_literal _ rfl
  have gap : ∀ sign : Char, isSpace sign = false →
      Takes (depth + 2) spaces [' '] (sign :: rest) (named "s-space") := fun sign other =>
    letter_space.zeroOrMore (gathers_named _) (by simp [isSpace]) (by simpa using other)
  have equals : Takes (depth + 2) (.literal "=") ['='] rest silent := takes_literal "=" rfl
  cases look with
  | negative =>
      have sign : Takes (depth + 2) (.first [.literal "≠", .literal "!="]) ['≠'] rest silent :=
        (takes_literal "≠" rfl).first
      have row := (ahead _).andThen ((gap '≠' rfl).andThen sign.last)
      exact ((row.call "lookahead-negative" (by simp [rules])).translate
        fun _ _ _ _ _ => trivial).first
  | positive =>
      have noSign : Refuses (depth + 2) (.first [.literal "≠", .literal "!="]) ('=' :: rest) :=
        (refuses_literal "≠" '≠' rfl (by simp)).both
          ((refuses_literal "!=" '!' rfl (by simp)).both refuses_none)
      have negative : Refuses (depth + 3) (.call "lookahead-negative")
          (Look.positive.word ++ rest) :=
        ((ahead _).refuses ((gap '=' rfl).refuses noSign.sequence)).call _ (by simp [rules]; rfl)
      have row := (ahead _).andThen ((gap '=' rfl).andThen equals.last)
      exact negative.orElse ((row.call "lookahead-positive" (by simp [rules])).translate
        fun _ _ _ _ _ => trivial).first
  | behind =>
      have other : Refuses (depth + 2) (.literal "lookahead") (Look.behind.word ++ rest) :=
        refuses_other_literal (by simp [Look.word, Look.stem])
      have behind : Takes (depth + 2) (.literal "lookbehind")
          ['l', 'o', 'o', 'k', 'b', 'e', 'h', 'i', 'n', 'd'] ([' ', '='] ++ rest) silent :=
        takes_literal _ rfl
      have row := behind.andThen ((gap '=' rfl).andThen equals.last)
      exact (other.sequence.call "lookahead-negative" (by simp [rules]; rfl)).orElse
        ((other.sequence.call "lookahead-positive" (by simp [rules]; rfl)).orElse
          ((row.call "lookbehind-positive" (by simp [rules])).translate
            fun _ _ _ _ _ => trivial).first)

/-- Alternatives that are looked for. -/
theorem Reads.lookaround (look : Look) (inside : ReadsBody nesting chars stands) :
    Reads "atom" EndsAtom (nesting + 2)
      ('[' :: ' ' :: (look.word ++ ' ' :: (chars ++ [' ', ']'])))
      (Sole "lookaround" fun source tree =>
        ∃ body, tree.child? "alternation" = some body ∧ stands source body ∧
          ∀ other : Look, (tree.child? other.kind).isSome = decide (look = other)) where
  opens := ⟨'[', _, rfl, by decide⟩
  takes {depth rest} deep _ := by
    obtain ⟨depth, rfl⟩ := Nat.exists_eq_add_of_le' ((Nat.le_add_left 2 _).trans deep)
    refine takes_atom [] "lookaround" rfl (by simp) ?_
    have body : Takes (depth + 8) (.call "alternation") (' ' :: chars) ([' ', ']'] ++ rest) _ :=
      inside.takes (Nat.le_of_add_le_add_right deep) (ends_closing (.inr rfl) rest)
    have close : Takes (depth + 8) (.sequence [.call "s-ignorable", .literal "]"]) [' ', ']'] rest
        (named "s-ignorable") := by
      simpa using (Dialect.takes_space rfl).andThen (takes_literal "]" rfl).last
    have gap : Takes (depth + 8) spaces [' '] (look.word ++ (' ' :: chars ++ [' ', ']']) ++ rest)
        (named "s-space") :=
      letter_space.zeroOrMore (gathers_named _) (by simp [isSpace])
        (by cases look <;> simp [Look.word, Look.stem, isSpace])
    have inner := gap.andThen ((takes_lookWord look).andThen (body.andThen close))
    have row : Takes (depth + 8) _ (['['] ++ _) rest _ := (takes_literal "[" rfl).andThen inner
    simp only [silent_andThen] at row
    refine ((row.of_eq (by simp)).call "lookaround" (by simp [rules, lookWords])).translate
      fun source tree _ _ within => ?_
    obtain ⟨left, _, split, space, _, _, rfl, ⟨word, rfl, label, -⟩, _, behind, rfl,
      ⟨body, rfl, bodyNamed, holds⟩, blanks⟩ := within
    have found : ∀ kind, "s-space" ≠ kind → "s-ignorable" ≠ kind → tree.child? kind =
        ([word, body].find? fun part => part.name = kind) := by
      intro kind noSpace noBlank
      rw [Tree.child?, split, List.find?_append, find?_of_named space noSpace, Option.none_or,
        ← List.append_assoc, List.find?_append, find?_of_named blanks noBlank, Option.or_none]
      rfl
    refine ⟨body, ?_, holds, fun other => ?_⟩
    · rw [found _ (by decide) (by decide)]
      cases look <;> simp [label, bodyNamed, Look.kind]
    · rw [found _ (by cases other <;> decide) (by cases other <;> decide)]
      cases look <;> cases other <;> simp [label, bodyNamed, Look.kind]
  noHead _ := refuses_head (by simp) (by simp)

end Dialect

end Bnf

end ParametricGrammar
