import ParametricGrammar.Proofs.Dialect.Definitions
import ParametricGrammar.Proofs.Dialect.PrintedBodies
/-!
# Printed literals

A literal is printed as a row of quoted runs and code points. Each of these pieces is an atom of the
notation, the row of them is evaluated like the literal, and so is the group that it becomes where a
mark stands behind it.
-/

namespace ParametricGrammar

/-! ### Literals in a row -/

namespace Cursor

private theorem skip?_append (cursor : Cursor) (front back : List Char) :
    cursor.skip? (front ++ back) = (cursor.skip? front).bind fun stop => stop.skip? back := by
  induction front generalizing cursor with
  | nil => rfl
  | cons wanted front induction =>
      rw [List.cons_append, skip?, skip?]
      cases cursor.next? with
      | none => rfl
      | some step =>
          by_cases same : step.1 = wanted
          · simpa [same] using induction step.2
          · simp [same]

end Cursor

namespace Alike

/-- Literals one after the other are the literal of their characters. -/
theorem literals (runs : List (List Char)) :
    Alike (.sequence (runs.map fun run => .literal (String.ofList run)))
      (.literal (String.ofList runs.flatten)) := by
  intro production invoke
  funext parameters
  rw [Node.evaluate_sequence]
  induction runs with
  | nil => rfl
  | cons run runs induction =>
      rw [List.map_cons, Node.evaluateAll_cons, induction]
      funext cursor memory
      simp only [Step.andThen, Node.evaluate, String.toList_ofList, List.flatten_cons,
        Cursor.skip?_append]
      cases cursor.skip? run with
      | none => rfl
      | some stop =>
          dsimp only [Option.bind_some]
          cases stop.skip? runs.flatten <;> rfl

end Alike

/-! ### Outcomes without trees -/

/-- A match without trees, or an ordinary failure to match. -/
def Reply.IsPlain (reply : Reply) : Prop :=
  reply.1 = .unmatched ∨ ∃ stop, reply.1 = .matched [] stop

/-- A repeated step without trees has none either, and never fails. -/
theorem isPlain_repetition {production : String} {step : Step}
    (plain : ∀ cursor memory, (step cursor memory).IsPlain) (minimum : ℕ) (unbounded : Bool)
    (budget count : ℕ) (cursor : Cursor) (memory : Memory) :
    (repetition production step minimum unbounded budget count [] cursor memory).IsPlain := by
  have closes : ∀ (count : ℕ) (stop : Cursor) (memory : Memory),
      Reply.IsPlain (closeRepetition minimum count [] stop, memory) := by
    intro count stop memory
    unfold closeRepetition
    split
    · exact .inr ⟨stop, rfl⟩
    · exact .inl rfl
  induction budget generalizing count cursor memory with
  | zero => exact closes count cursor memory
  | succ budget induction =>
      rw [repetition]
      rcases reply : step cursor memory with ⟨outcome, later⟩
      obtain missed | ⟨stop, matched⟩ := reply ▸ plain cursor memory
      · obtain rfl : outcome = .unmatched := missed
        exact closes count cursor later
      · obtain rfl : outcome = .matched [] stop := matched
        dsimp only
        split
        · exact closes (count + 1) stop _
        · exact induction (count + 1) stop later

namespace Node

variable {production : String} {invoke : Invoke}

private theorem isPlain_literal (text : String) (parameters : Parameters) (cursor : Cursor)
    (memory : Memory) :
    (evaluate production invoke (.literal text) parameters cursor memory).IsPlain := by
  rw [evaluate]
  split
  · exact .inr ⟨_, rfl⟩
  · exact .inl rfl

end Node

namespace Bnf

/-! ### Pieces -/

namespace Piece

/-- A run that one kind of quote can enclose. -/
def Quotable (run : List Char) : Prop :=
  ∃ quote, Dialect.isQuote quote = true ∧ run.all (Dialect.fits quote) = true

/-- A piece that can be read back: a quoted run is not empty, and its quotes can enclose it. -/
def Clean : Piece → Prop
  | quoted run => run ≠ [] ∧ Quotable run
  | lineBreak _ => True

private theorem quotable_nil : Quotable [] := ⟨'"', rfl, rfl⟩

/-- A run can be extended by a character that neither breaks the line nor ends the run. -/
theorem Quotable.extend {run : List Char} {char : Char} (quotable : Quotable run)
    (single : breaksLine char = false) (continues : endsRun run char = false) :
    Quotable (run ++ [char]) := by
  obtain ⟨quote, known, all⟩ := quotable
  by_cases same : char = quote
  · subst same
    have fit : ∀ other ∈ run, other ≠ char ∧ breaksLine other = false := by
      simpa [Dialect.fits] using all
    -- The other quote encloses the run, which does not hold it.
    obtain ⟨sign, other, isSign, apart⟩ : ∃ sign, otherQuote? char = some sign ∧
        Dialect.isQuote sign = true ∧ char ≠ sign := by
      obtain rfl | rfl : char = '\'' ∨ char = '"' := by simpa [Dialect.isQuote] using known
      · exact ⟨'"', rfl, rfl, by decide⟩
      · exact ⟨'\'', rfl, rfl, by decide⟩
    have absent : sign ∉ run := by simpa [endsRun, other] using continues
    refine ⟨sign, isSign, ?_⟩
    simp only [List.all_append, List.all_cons, List.all_nil, Bool.and_true, Bool.and_eq_true]
    refine ⟨List.all_eq_true.mpr fun other member => ?_, by simp [Dialect.fits, apart, single]⟩
    have differs : other ≠ sign := fun equal => absent (equal ▸ member)
    simp [Dialect.fits, differs, (fit other member).2]
  · exact ⟨quote, known, by simp [all, Dialect.fits, same, single]⟩

private theorem quotable_singleton {char : Char} (single : breaksLine char = false) :
    Quotable [char] :=
  quotable_nil.extend single (by unfold endsRun; split <;> rfl)

private theorem clean_ofRun {run : List Char} (quotable : Quotable run) :
    ∀ piece ∈ ofRun run, piece.Clean := by
  intro piece member
  unfold ofRun at member
  split at member
  · cases member
  · rename_i some
    obtain rfl := List.mem_singleton.mp member
    exact ⟨by simpa using some, quotable⟩

/-- Every piece of a text can be read back. -/
theorem clean_split {run rest : List Char} (quotable : Quotable run) :
    ∀ piece ∈ split run rest, piece.Clean := by
  induction rest generalizing run with
  | nil => exact clean_ofRun quotable
  | cons char rest induction =>
      rw [split]
      split
      · rw [List.forall_mem_append, List.forall_mem_cons]
        exact ⟨clean_ofRun quotable, trivial, induction quotable_nil⟩
      · rename_i single
        rw [Bool.not_eq_true] at single
        split
        · rw [List.forall_mem_append]
          exact ⟨clean_ofRun quotable, induction (quotable_singleton single)⟩
        · rename_i continues
          rw [Bool.not_eq_true] at continues
          exact induction (quotable.extend single continues)

private theorem flatMap_chars_ofRun (run : List Char) : (ofRun run).flatMap chars = run := by
  unfold ofRun
  split <;> simp_all [chars]

/-- The pieces of a text together are the text. -/
theorem flatMap_chars_split (run rest : List Char) :
    (split run rest).flatMap chars = run ++ rest := by
  induction rest generalizing run with
  | nil => simpa [split] using flatMap_chars_ofRun run
  | cons char rest induction =>
      rw [split]
      split
      · simp [flatMap_chars_ofRun, induction, chars]
      · split
        · simp [flatMap_chars_ofRun, induction]
        · simp [induction]

theorem clean_ofText {text : String} : ∀ piece ∈ ofText text, piece.Clean :=
  clean_split quotable_nil

theorem ofList_flatMap_chars (text : String) :
    String.ofList ((ofText text).flatMap chars) = text := by
  rw [ofText, flatMap_chars_split, List.nil_append, String.ofList_toList]

end Piece

namespace Dialect

/-! ### Phrases -/

/-- A text is a phrase that nests no deeper than given and is evaluated like an expression. -/
def Worded (name : String) (ends : List Char → Prop) (nesting : ℕ) (node : Node)
    (chars : List Char) : Prop :=
  ∃ phrase : Phrase name ends, phrase.chars = chars ∧ phrase.nesting ≤ nesting ∧
    Alike phrase.meaning.node node

/-- A text of alternatives that nests no deeper than given and is evaluated like an expression. -/
def WordedBody (nesting : ℕ) (node : Node) (chars : List Char) : Prop :=
  ∃ body : Alternation, body.chars = chars ∧ body.nesting ≤ nesting ∧
    Alike body.meaning.node node

private theorem deepest_le {nestings : List ℕ} {bound : ℕ}
    (all : ∀ nesting ∈ nestings, nesting ≤ bound) : deepest nestings ≤ bound := by
  induction nestings with
  | nil => exact Nat.zero_le bound
  | cons nesting nestings induction =>
      rw [List.forall_mem_cons] at all
      exact max_le all.1 (induction all.2)

variable {node : Node} {chars : List Char} {nesting : ℕ}

namespace Worded

/-- A part alone is a whole body. -/
theorem body (part : Worded "quantified" Apart nesting node chars) :
    WordedBody (nesting + 3) node chars := by
  obtain ⟨phrase, rfl, shallow, alike⟩ := part
  let row := sequence (difference phrase []) []
  refine ⟨alternation row [], ?_, ?_, alike⟩
  · simp [alternation, row, sequence, difference, written]
  · simpa [alternation, row, sequence, difference, deepest] using shallow

theorem plain (atom : Worded "atom" EndsAtom nesting node chars) :
    Worded "quantified" Apart (nesting + 1) node chars := by
  obtain ⟨phrase, rfl, shallow, alike⟩ := atom
  exact ⟨Quantified.plain phrase, rfl, Nat.succ_le_succ shallow, alike⟩

private theorem marked (atom : Worded "atom" EndsAtom nesting node chars) (mark : Mark) :
    Worded "quantified" Apart (nesting + 1) (mark.repeated node) (chars ++ [mark.char]) := by
  obtain ⟨phrase, rfl, shallow, alike⟩ := atom
  refine ⟨Quantified.marked phrase mark, rfl, Nat.succ_le_succ shallow, ?_⟩
  cases mark <;> exact alike.repeated _ _

theorem group (body : WordedBody nesting node chars) :
    Worded "atom" EndsAtom (nesting + 2) node ('(' :: ' ' :: (chars ++ [' ', ')'])) := by
  obtain ⟨inside, rfl, shallow, alike⟩ := body
  exact ⟨Atom.group inside, rfl, Nat.add_le_add_right shallow 2, alike⟩

/-- Texts of expressions are those of phrases with the same meanings. -/
theorem exists_phrases {name : String} {ends : List Char → Prop} {nodes : List Node}
    {texts : List (List Char)} (each : List.Forall₂ (Worded name ends nesting) nodes texts) :
    ∃ phrases : List (Phrase name ends), texts = phrases.map Phrase.chars ∧
      (∀ phrase ∈ phrases, phrase.nesting ≤ nesting) ∧
      List.Forall₂ (fun phrase node => Alike phrase.meaning.node node) phrases nodes := by
  induction each with
  | nil => exact ⟨[], rfl, by simp, .nil⟩
  | cons worded _ induction =>
      obtain ⟨phrase, rfl, shallow, alike⟩ := worded
      obtain ⟨phrases, rfl, bounded, others⟩ := induction
      exact ⟨phrase :: phrases, rfl, List.forall_mem_cons.mpr ⟨shallow, bounded⟩,
        .cons alike others⟩

private theorem deepest_nesting_le {name : String} {ends : List Char → Prop}
    {phrases : List (Phrase name ends)} (bounded : ∀ phrase ∈ phrases, phrase.nesting ≤ nesting) :
    deepest (phrases.map Phrase.nesting) ≤ nesting :=
  deepest_le (List.forall_mem_map.mpr bounded)

/-- An atom as a part of a row. -/
def part (atom : Phrase "atom" EndsAtom) : Phrase "difference" EndsDifference :=
  difference (Quantified.plain atom) []

private theorem nesting_part (atom : Phrase "atom" EndsAtom) :
    (part atom).nesting = atom.nesting + 2 := by
  simp [part, difference, Quantified.plain, deepest]

/-- Atoms in a row are a body. -/
theorem row {nodes : List Node} {texts : List (List Char)} (several : 2 ≤ nodes.length)
    (each : List.Forall₂ (Worded "atom" EndsAtom nesting) nodes texts) :
    WordedBody (nesting + 4) (.sequence nodes) (together [' '] texts) := by
  obtain ⟨atoms, rfl, bounded, alike⟩ := exists_phrases each
  obtain ⟨first, second, more, rfl⟩ : ∃ first second more, atoms = first :: second :: more := by
    rw [← alike.length_eq] at several
    match atoms, several with
    | first :: second :: more, _ => exact ⟨first, second, more, rfl⟩
  let parts := sequence (part first) ((second :: more).map part)
  refine ⟨alternation parts [], ?_, ?_, ?_⟩
  · simp [alternation, parts, sequence, part, difference, Quantified.plain, Dialect.written,
      together, List.flatMap_map, Phrase.item]
  · have deep : deepest (((first :: second :: more).map part).map Phrase.nesting) ≤ nesting + 2 :=
      deepest_nesting_le (List.forall_mem_map.mpr fun atom member => by
        simpa [nesting_part] using bounded atom member)
    simpa [alternation, parts, sequence, deepest] using deep
  · have same : (alternation parts []).meaning.node =
        .sequence ((first :: second :: more).map fun atom => atom.meaning.node) := by
      simp [alternation, parts, sequence, Meaning.alternation, Meaning.sequence, soleOr, part,
        difference, Quantified.plain, Meaning.difference, Meaning.ofNode, Function.comp_def]
    rw [same]
    exact .sequence (List.forall₂_map_left_iff.mpr alike)

/-- An atom as an alternative. -/
def branch (atom : Phrase "atom" EndsAtom) : Phrase "sequence" EndsSequence :=
  sequence (part atom) []

private theorem nesting_branch (atom : Phrase "atom" EndsAtom) :
    (branch atom).nesting = atom.nesting + 3 := by
  simp [branch, sequence, nesting_part, deepest]

/-- Alternative atoms are a body. -/
theorem choice {nodes : List Node} {texts : List (List Char)} (some : nodes ≠ [])
    (each : List.Forall₂ (Worded "atom" EndsAtom nesting) nodes texts) :
    WordedBody (nesting + 4) (.first nodes) (together [' ', '|', ' '] texts) := by
  obtain ⟨atoms, rfl, bounded, alike⟩ := exists_phrases each
  obtain ⟨first, more, rfl⟩ : ∃ first more, atoms = first :: more := by
    refine List.exists_cons_of_ne_nil fun none => some ?_
    rw [none] at alike
    exact List.forall₂_nil_left_iff.mp alike
  refine ⟨alternation (branch first) (more.map branch), ?_, ?_, ?_⟩
  · simp [alternation, branch, sequence, part, difference, Quantified.plain, Dialect.written,
      together, List.flatMap_map, Phrase.item]
  · have deep : deepest (((first :: more).map branch).map Phrase.nesting) ≤ nesting + 3 :=
      deepest_nesting_le (List.forall_mem_map.mpr fun atom member => by
        simpa [nesting_branch] using bounded atom member)
    simpa [alternation, deepest] using deep
  · have same : (alternation (branch first) (more.map branch)).meaning.node =
        soleOr .first ((first :: more).map fun atom => atom.meaning.node) := by
      simp [alternation, branch, sequence, Meaning.alternation, Meaning.sequence, part,
        difference, Quantified.plain, Meaning.difference, Function.comp_def]
    have nodes := Alike.first (List.forall₂_map_left_iff.mpr alike)
    rw [same]
    cases more with
    | nil => exact (Alike.first_singleton _).symm.trans nodes
    | cons second more => exact nodes

end Worded

/-! ### Literals -/

/-- A piece is an atom that is evaluated like the literal of its characters. -/
theorem worded_piece {piece : Piece} (clean : piece.Clean) :
    Worded "atom" EndsAtom 0 (.literal (String.ofList piece.chars)) piece.text.toList := by
  cases piece with
  | quoted run =>
      obtain ⟨some, quote, known, all⟩ := clean
      obtain ⟨sign, isSign, fit, written⟩ := exists_quote known all
      exact ⟨Atom.quoted sign run isSign some fit, written.symm, le_rfl, .refl _⟩
  | lineBreak char =>
      obtain ⟨digits, written, all, value⟩ := exists_digits char.val
      have valid : char.val.toNat ≤ CharSet.maxCodePoint.toNat := Nat.le_of_lt_succ (toNat_lt char)
      refine ⟨Atom.hex digits char.val.toNat all value valid, written.symm, le_rfl, ?_⟩
      change Alike (.chars (.single (UInt32.ofNat char.val.toNat))) _
      rw [UInt32.ofNat_toNat]
      exact (Alike.literal_single char).symm

/-- The pieces of a text in a row are evaluated like its literal. -/
theorem alike_pieces (text : String) :
    Alike (.sequence ((Piece.ofText text).map fun piece => .literal (String.ofList piece.chars)))
      (.literal text) := by
  have literals := Alike.literals ((Piece.ofText text).map Piece.chars)
  rw [List.map_map, ← List.flatMap_def, Piece.ofList_flatMap_chars] at literals
  exact literals

/-- Several pieces of a text are a body that is evaluated like its literal. -/
theorem wordedBody_pieces {text : String} (several : 2 ≤ (Piece.ofText text).length) :
    WordedBody 4 (.literal text)
      (joined " " ((Piece.ofText text).map Piece.text)).toList := by
  obtain ⟨body, written, shallow, alike⟩ : WordedBody 4 _
      (together [' '] ((Piece.ofText text).map fun piece => piece.text.toList)) := by
    have each : List.Forall₂ (Worded "atom" EndsAtom 0)
        ((Piece.ofText text).map fun piece => .literal (String.ofList piece.chars))
        ((Piece.ofText text).map fun piece => piece.text.toList) := by
      rw [List.forall₂_map_left_iff, List.forall₂_map_right_iff, List.forall₂_same]
      exact fun piece member => worded_piece (Piece.clean_ofText piece member)
    exact Worded.row (by simpa using several) each
  refine ⟨body, ?_, shallow, alike.trans (alike_pieces text)⟩
  rw [written, toList_joined, List.map_map]
  rfl

/-- A literal of at most one piece is printed as an atom. -/
theorem worded_few {text : String} (few : (Piece.ofText text).length < 2) (position : Position) :
    Worded "atom" EndsAtom 0 (.literal text) (literalText position text).toList := by
  have alike := alike_pieces text
  have clean : ∀ piece ∈ Piece.ofText text, piece.Clean := Piece.clean_ofText
  rw [literalText]
  generalize Piece.ofText text = pieces at few alike clean
  cases pieces with
  | nil =>
      refine ⟨Atom.special "empty" .empty List.mem_cons_self, ?_, le_rfl, alike⟩
      simp [Atom.special]
  | cons piece more =>
      obtain rfl : more = [] := by simpa using few
      obtain ⟨phrase, written, shallow, same⟩ := worded_piece (clean piece List.mem_cons_self)
      exact ⟨phrase, written, shallow,
        same.trans ((Alike.sequence_singleton _).symm.trans alike)⟩

/-- A literal of several pieces is printed as their row, in a group where a unit has to stand. -/
theorem literalText_several {text : String} (several : 2 ≤ (Piece.ofText text).length)
    (position : Position) : literalText position text =
      grouped (position = .unit) (joined " " ((Piece.ofText text).map Piece.text)) := by
  rw [literalText]
  generalize Piece.ofText text = pieces at several ⊢
  rcases pieces with _ | ⟨first, _ | ⟨second, more⟩⟩
  · simp at several
  · simp at several
  · rfl

/-- What is printed for a literal in front of a mark is an atom that is evaluated like it. -/
theorem worded_literal (text : String) :
    Worded "atom" EndsAtom 6 (.literal text) (literalText .unit text).toList := by
  by_cases several : 2 ≤ (Piece.ofText text).length
  · rw [literalText_several several, grouped]
    simpa using Worded.group (wordedBody_pieces several)
  · obtain ⟨atom, written, shallow, alike⟩ := worded_few (Nat.lt_of_not_le several) .unit
    exact ⟨atom, written, shallow.trans (Nat.zero_le 6), alike⟩

/-- What is printed for a literal is a body that is evaluated like it. -/
theorem wordedBody_literal (text : String) :
    WordedBody 4 (.literal text) (literalText .alternation text).toList := by
  by_cases several : 2 ≤ (Piece.ofText text).length
  · rw [literalText_several several]
    exact wordedBody_pieces several
  · exact (worded_few (Nat.lt_of_not_le several) .alternation).plain.body

theorem WordedBody.mono {deeper : ℕ} (worded : WordedBody nesting node chars)
    (le : nesting ≤ deeper) : WordedBody deeper node chars := by
  obtain ⟨body, written, shallow, alike⟩ := worded
  exact ⟨body, written, shallow.trans le, alike⟩

private theorem wordedBody_marked (text : String) (mark : Mark) :
    WordedBody 10 (mark.repeated (.literal text))
      ((literalText .unit text).toList ++ [mark.char]) :=
  ((worded_literal text).marked mark).body

/-- A text after the head of a clause without parameters is compiled to a body that is evaluated
like the expression that it words. -/
theorem exists_compile {node : Node} {text : String}
    (worded : WordedBody 1014 node text.toList) :
    ∃ body, compile ("p ::= " ++ text) = .ok (.ofList [("p", { body := body })]) ∧
      Alike body node := by
  obtain ⟨body, written, bounded, alike⟩ := worded
  let definition : Definition := ⟨['p'], body, rfl⟩
  have same : "p ::= " ++ text = String.ofList definition.chars := by
    rw [← String.toList_inj]
    simp [definition, Definition.chars, clauseChars, optionalChars, written]
  refine ⟨body.meaning.node, ?_, alike⟩
  rw [same, Definition.compile_chars bounded]
  rfl

end Dialect

end Bnf

open Bnf Dialect

namespace Node

/-- A literal, and what an optional and a repeated one are. -/
def literalForms (text : String) : List Node :=
  [.literal text, .optional (.literal text), .oneOrMore (.literal text)]

private theorem isPlain_literalForms {text : String} {node : Node} (form : node ∈ literalForms text)
    (production : String) (invoke : Invoke) (parameters : Parameters) (cursor : Cursor)
    (memory : Memory) : (evaluate production invoke node parameters cursor memory).IsPlain := by
  have plain : ∀ cursor memory,
      (evaluate production invoke (.literal text) parameters cursor memory).IsPlain :=
    isPlain_literal text parameters
  simp only [literalForms, List.mem_cons, List.not_mem_nil, or_false] at form
  rcases form with rfl | rfl | rfl
  · exact plain cursor memory
  · exact isPlain_repetition plain _ _ _ _ cursor memory
  · exact isPlain_repetition plain _ _ _ _ cursor memory

/-- Literals compile back. What is printed for a literal, bare, optional or repeated, is compiled
behind the head of a clause, to a body that acts as the original expression: at every offset of
every text, and in every grammar, both miss, or both match without trees and end at the same
place. -/
theorem literalForms_compile_back (text : String) (node : Node) (form : node ∈ literalForms text) :
    ∃ body, compile ("p ::= " ++ node.text) = .ok (.ofList [("p", { body := body })]) ∧
      ∀ (setting : Setting) (source : List Char) (offset : ℕ) (parameters : Parameters)
        (memory : Memory),
        let reply := setting.parse source offset parameters body memory
        setting.parse source offset parameters node memory = reply ∧
          (reply.1 = .unmatched ∨ ∃ stop, reply.1 = .matched [] stop) := by
  obtain ⟨body, compiles, alike⟩ : ∃ body, compile ("p ::= " ++ node.text) =
      .ok (.ofList [("p", { body := body })]) ∧ Alike body node := by
    have shape := form
    simp only [literalForms, List.mem_cons, List.not_mem_nil, or_false] at shape
    rcases shape with rfl | rfl | rfl
    · exact exists_compile ((wordedBody_literal text).mono (by decide))
    · have written : (optional (literal text)).text.toList =
          (literalText .unit text).toList ++ [Mark.optional.char] := String.toList_append
      exact exists_compile (written ▸ (wordedBody_marked text .optional).mono (by decide))
    · have written : (oneOrMore (literal text)).text.toList =
          (literalText .unit text).toList ++ [Mark.oneOrMore.char] := String.toList_append
      exact exists_compile (written ▸ (wordedBody_marked text .oneOrMore).mono (by decide))
  refine ⟨body, compiles, fun setting source offset parameters memory => ?_⟩
  dsimp only
  rw [Setting.parse, Setting.parse]
  cases Cursor.at? source offset with
  | none => exact ⟨rfl, .inl rfl⟩
  | some cursor =>
      dsimp only
      rw [alike]
      exact ⟨rfl, isPlain_literalForms form _ _ parameters cursor memory⟩

/-- A text with both quotes and a line break, repeated. -/
def quotesAndBreak : Node := .oneOrMore (.literal "'\"\n")

theorem literalForms_compile_back_quotes :
    quotesAndBreak ∈ literalForms "'\"\n" ∧ quotesAndBreak.text = "( \"'\" '\"' x0A )+" ∧
      ∃ body, compile "p ::= ( \"'\" '\"' x0A )+" = .ok (.ofList [("p", { body := body })]) ∧
        ∀ (setting : Setting) (source : List Char) (offset : ℕ) (parameters : Parameters)
          (memory : Memory),
          let reply := setting.parse source offset parameters body memory
          setting.parse source offset parameters quotesAndBreak memory = reply ∧
            (reply.1 = .unmatched ∨ ∃ stop, reply.1 = .matched [] stop) := by
  have form : quotesAndBreak ∈ literalForms "'\"\n" := by simp [literalForms, quotesAndBreak]
  have printed : quotesAndBreak.text = "( \"'\" '\"' x0A )+" := by decide +kernel
  have whole : "p ::= ( \"'\" '\"' x0A )+" = "p ::= " ++ quotesAndBreak.text := by
    rw [printed]
    rfl
  rw [whole]
  exact ⟨form, printed, literalForms_compile_back _ _ form⟩

end Node

end ParametricGrammar
