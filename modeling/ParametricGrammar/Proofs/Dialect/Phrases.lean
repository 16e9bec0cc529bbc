import ParametricGrammar.Proofs.Dialect.Rows
/-!
# Phrases of grammar texts

A phrase is text of a body together with what it stands for, and the proof that the dialect reads
the text and translates its tree so. Phrases are built from smaller ones as bodies are written, and
each way to build them carries the proof along.
-/

namespace ParametricGrammar

namespace Bnf

namespace Dialect

variable {name : String} {ends : List Char → Prop}

/-- Text that a production of the dialect reads, with what it stands for. -/
structure Phrase (name : String) (ends : List Char → Prop) where
  chars : List Char
  meaning : Meaning
  nesting : ℕ
  reads : Reads name ends nesting chars fun source tree => Denotes source tree meaning

/-- The text of a phrase with what its tree stands for. -/
def Phrase.item (phrase : Phrase name ends) : Item :=
  ⟨phrase.chars, fun source tree => Denotes source tree phrase.meaning⟩

/-- Trees that stand for phrases denote their meanings. -/
theorem Stood.parts (phrases : List (Phrase name ends)) {kind : String} {source : List Char}
    {trees : List Tree} (stood : Stood kind (phrases.map Phrase.item) source trees) :
    Parts kind source trees (phrases.map Phrase.meaning) := by
  unfold Stood at stood
  unfold Parts
  rw [List.forall₂_map_right_iff] at stood ⊢
  exact stood

/-- The greatest of some depths. -/
def deepest (nestings : List ℕ) : ℕ := nestings.foldr max 0

private theorem le_deepest {nesting : ℕ} {nestings : List ℕ} (member : nesting ∈ nestings) :
    nesting ≤ deepest nestings := by
  induction nestings with
  | nil => cases member
  | cons other nestings induction =>
      rcases List.mem_cons.mp member with rfl | later
      · exact le_max_left _ _
      · exact (induction later).trans (le_max_right _ _)

/-- Phrases are read at the depth that the deepest of them needs. -/
theorem Phrase.reads_deepest (phrases : List (Phrase name ends)) :
    ∀ item ∈ phrases.map Phrase.item,
      Reads name ends (deepest (phrases.map Phrase.nesting)) item.chars item.stands := by
  intro item member
  obtain ⟨phrase, among, rfl⟩ := List.mem_map.mp member
  exact phrase.reads.mono (le_deepest (List.mem_map_of_mem among))

/-! ### Atoms -/

namespace Atom

/-- A name in angle brackets. -/
def special (name : String) (node : Node) (known : (name, node) ∈ specials) :
    Phrase "atom" EndsAtom where
  chars := '<' :: (name.toList ++ ['>'])
  meaning := .ofNode node
  nesting := 0
  reads := by
    have letters : name.toList ≠ [] ∧
        name.toList.all (fun char => char.isAlphanum || isJoiner char) = true := by
      simp only [specials, List.mem_cons, Prod.mk.injEq, List.not_mem_nil, or_false] at known
      rcases known with ⟨rfl, -⟩ | ⟨rfl, -⟩ | ⟨rfl, -⟩ <;> decide
    exact (Reads.special letters.1 (List.all_eq_true.mp letters.2)).imp
      fun _ _ kind ⟨_, only, named, written⟩ =>
        .atom kind only (.special named written known)

/-- A code point. -/
def hex (digits : List Char) (code : ℕ) (all : digits.all isHexDigit = true)
    (value : Numeral.natural? 16 digits = some code)
    (valid : code ≤ CharSet.maxCodePoint.toNat) : Phrase "atom" EndsAtom where
  chars := 'x' :: digits
  meaning := .ofSet (.single (UInt32.ofNat code))
  nesting := 0
  reads := by
    have some : digits ≠ [] := by
      rintro rfl
      cases value
    exact (Reads.hex some (List.all_eq_true.mp all)).imp
      fun _ _ kind ⟨_, only, named, written⟩ =>
        .atom kind only (.hexChar named (Denotes.hexOf_ok written value valid))

/-- A range between two ends. -/
def range (first last : RangeEnd) : Phrase "atom" EndsAtom where
  chars := '[' :: (first.chars ++ '-' :: (last.chars ++ [']']))
  meaning := .ofSet (.ofRanges [⟨first.code, last.code⟩])
  nesting := 0
  reads := (Reads.range first last).imp fun _ _ kind ⟨_, only, named, ends⟩ =>
    .atom kind only (.codePointRange named ends)

/-- A quoted text. -/
def quoted (quote : Char) (run : List Char) (known : isQuote quote = true) (some : run ≠ [])
    (all : run.all (fits quote) = true) : Phrase "atom" EndsAtom where
  chars := quote :: (run ++ [quote])
  meaning := .literal run
  nesting := 0
  reads := (Reads.quoted known some all).imp fun _ _ kind ⟨_, only, named, written⟩ =>
    .atom kind only (.quotedString named written)

/-- The dot for any character. -/
def any : Phrase "atom" EndsAtom where
  chars := ['.']
  meaning := .ofSet .any
  nesting := 0
  reads := Reads.any.imp fun _ _ kind ⟨_, only, named, _⟩ => .atom kind only (.anyChar named)

/-- A call of a production without arguments. -/
def reference (name : List Char) (valid : isName name = true) (other : isHexLike name = false) :
    Phrase "atom" EndsAtom where
  chars := name
  meaning := .reference name
  nesting := 1
  reads := by
    have reads := Reads.reference valid other readsList_none
    rw [optionalChars_none, List.append_nil] at reads
    refine reads.imp fun _ _ kind ⟨tree, only, named, ⟨_, label, written⟩, list⟩ => ?_
    exact .atom kind only (.reference named label (eq_none_of_rel list) written)

end Atom

/-! ### Marks, rows and alternatives -/

namespace Quantified

/-- An atom without a mark. -/
def plain (atom : Phrase "atom" EndsAtom) : Phrase "quantified" Apart where
  chars := atom.chars
  meaning := atom.meaning
  nesting := atom.nesting + 1
  reads := atom.reads.plain.imp fun _ _ kind ⟨_, found, denotes, bare⟩ =>
    .quantified kind found bare denotes

/-- An atom with a mark. -/
def marked (atom : Phrase "atom" EndsAtom) (mark : Mark) : Phrase "quantified" Apart where
  chars := atom.chars ++ [mark.char]
  meaning := .marked mark atom.meaning
  nesting := atom.nesting + 1
  reads := (atom.reads.marked mark).imp
    fun _ _ kind ⟨_, _, found, denotes, behind, _, written⟩ =>
      .marked mark kind found behind written denotes

end Quantified

/-- Operands, the later ones excluded from the first. -/
def difference (first : Phrase "quantified" Apart) (excluded : List (Phrase "quantified" Apart)) :
    Phrase "difference" EndsDifference where
  chars := first.chars ++ written [' ', '-', ' '] (excluded.map Phrase.item)
  meaning := .difference first.meaning (excluded.map Phrase.meaning)
  nesting := deepest ((first :: excluded).map Phrase.nesting) + 1
  reads := (Reads.difference (Phrase.reads_deepest (first :: excluded))).imp
    fun _ _ kind stood => .difference kind (Stood.parts (first :: excluded) stood)

/-- Parts of a row. -/
def sequence (first : Phrase "difference" EndsDifference)
    (more : List (Phrase "difference" EndsDifference)) : Phrase "sequence" EndsSequence where
  chars := first.chars ++ written [' '] (more.map Phrase.item)
  meaning := .sequence (first.meaning :: more.map Phrase.meaning)
  nesting := deepest ((first :: more).map Phrase.nesting) + 1
  reads := (Reads.sequence (Phrase.reads_deepest (first :: more))).imp
    fun _ _ kind stood => .sequence kind (Stood.parts (first :: more) stood)

/-- Text of alternatives behind a space, with what it stands for. -/
structure Alternation where
  chars : List Char
  meaning : Meaning
  nesting : ℕ
  reads : ReadsBody nesting chars fun source tree => Denotes source tree meaning

/-- Alternatives. -/
def alternation (first : Phrase "sequence" EndsSequence)
    (more : List (Phrase "sequence" EndsSequence)) : Alternation where
  chars := first.chars ++ written [' ', '|', ' '] (more.map Phrase.item)
  meaning := .alternation (first.meaning :: more.map Phrase.meaning)
  nesting := deepest ((first :: more).map Phrase.nesting) + 1
  reads := (ReadsBody.alternation (Phrase.reads_deepest (first :: more))).imp
    fun _ _ kind stood => .alternation kind (Stood.parts (first :: more) stood)

namespace Alternation

/-- An atom as the only part of the only alternative. -/
def ofAtom (atom : Phrase "atom" EndsAtom) : Alternation :=
  alternation (sequence (difference (Quantified.plain atom) []) []) []

variable {atom : Phrase "atom" EndsAtom}

@[simp] theorem chars_ofAtom : (ofAtom atom).chars = atom.chars := by
  simp [ofAtom, alternation, sequence, difference, Quantified.plain, written]

@[simp] theorem node_ofAtom : (ofAtom atom).meaning.node = atom.meaning.node := rfl

@[simp] theorem nesting_ofAtom : (ofAtom atom).nesting = atom.nesting + 4 := by
  simp [ofAtom, alternation, sequence, difference, Quantified.plain, deepest]

end Alternation

namespace Atom

/-- Alternatives in a group. -/
def group (inside : Alternation) : Phrase "atom" EndsAtom where
  chars := '(' :: ' ' :: (inside.chars ++ [' ', ')'])
  meaning := inside.meaning
  nesting := inside.nesting + 2
  reads := (Reads.group inside.reads).imp
    fun _ _ kind ⟨_, only, named, _, found, denotes⟩ =>
      .atom kind only (.group named found denotes)

/-- Alternatives that are looked for ahead. -/
def lookahead (positive : Bool) (inside : Alternation) : Phrase "atom" EndsAtom where
  chars := '[' :: ' ' :: ((Look.ahead positive).word ++ ' ' :: (inside.chars ++ [' ', ']']))
  meaning := .ofNode (.lookahead inside.meaning.node positive)
  nesting := inside.nesting + 2
  reads := (Reads.lookaround (.ahead positive) inside.reads).imp
    fun _ part kind ⟨tree, only, named, _, found, denotes, looks⟩ => by
      have ahead : tree.child? "lookbehind-positive" = none := by
        cases positive <;> simpa [Look.ahead, Look.kind] using looks .behind
      have sign : (tree.child? "lookahead-negative").isNone = positive := by
        cases positive <;> simpa [Look.ahead, Look.kind] using looks .negative
      exact .atom kind only (sign ▸ denotes.lookahead named found ahead)

end Atom

end Dialect

end Bnf

end ParametricGrammar
