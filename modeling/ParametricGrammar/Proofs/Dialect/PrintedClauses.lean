import ParametricGrammar.Proofs.Dialect.PrintedBodies
/-!
# Printed clauses

A production is printed as one line for its body, or as one for each of its cases. Each line is read
as a clause, which is translated to the name, the formals, the literals and the number of the line,
with a tree that means its body.
-/

namespace ParametricGrammar

namespace Bnf

namespace Dialect

variable {source : List Char} {tree : Tree}

/-! ### Lines -/

/-- What a clause is printed from. -/
structure Line where
  number : Option UInt32
  name : String
  formals : List Formal
  pattern : Parameters
  body : Node

namespace Line

/-- A line that can be read back. -/
structure Valid (line : Line) : Prop where
  name : isName line.name.toList = true
  distinct : line.formals.Nodup
  fits : line.pattern.Fits line.formals
  body : Compiled line.body

/-- What a clause has from a line. -/
structure Describes (line : Line) (source : List Char) (clause : Clause) : Prop where
  number : clause.number = line.number
  name : clause.name = line.name
  formals : clause.formals = line.formals
  pattern : clause.pattern = line.pattern
  body : Means line.body source clause.body

/-- How a line is written, without its line break. -/
def chars (line : Line) : List Char :=
  clauseChars (line.number.map numberLabel) line.name.toList
    (parameterList (headItems line.formals line.pattern))
    (nodeText .alternation line.body).toList

/-- The text of a line, whose tree is translated to a clause that it describes. -/
def item (line : Line) : Item where
  chars := line.chars
  stands source tree := ∃ clause, Clause.ofTree source tree = .ok clause ∧
    line.Describes source clause

variable {line : Line}

theorem toList_clauseText (line : Line) :
    (clauseText line.number line.name (caseHead line.formals line.pattern) line.body).toList =
      line.chars ++ ['\n'] := by
  have list := chars_parameterList (chars_headItems line.formals line.pattern)
  rw [chars, clauseChars, list]
  unfold clauseText
  cases line.number with
  | none => simp [optionalChars]
  | some number => simp [optionalChars, numberLabel]

private theorem numberOf_eq {number : Option UInt32} {label : Option Tree}
    (labelled : Option.Rel (fun item tree => item.stands source tree) (number.map numberLabel)
      label) : Clause.numberOf source label = .ok number := by
  cases number with
  | none =>
      cases labelled
      rfl
  | some number =>
      cases labelled with
      | some reads =>
          have reads : sectionNumber source _ = .ok number := reads
          rw [Clause.numberOf, reads]
          rfl

private theorem exists_clause_of_parts (valid : line.Valid)
    (parts : ClauseParts (line.number.map numberLabel) line.name.toList
      (parameterList (headItems line.formals line.pattern)) (Means line.body) source tree) :
    ∃ clause, Clause.ofTree source tree = .ok clause ∧ line.Describes source clause := by
  obtain ⟨labelled, ⟨part, named, written⟩, listed, body, alternation, means⟩ := parts
  rw [Clause.ofTree_eq, numberOf_eq labelled, foldlM_add valid.distinct valid.fits listed]
  simp only [Tree.required, named, alternation]
  exact ⟨_, rfl, rfl, written.text, rfl, rfl, means⟩

/-- A line is read as a clause that it describes. -/
theorem exists_reads (valid : line.Valid) :
    ∃ nesting, ReadsClause nesting line.item.chars line.item.stands := by
  obtain ⟨nesting, reads⟩ := (printed_of_compiled valid.body).choice.renderedBody
  have labels : ReadsLabel (line.number.map numberLabel) := by
    cases line.number with
    | none => exact readsLabel_none
    | some number => exact readsLabel_number number
  exact ⟨nesting, (ReadsClause.of_body reads labels valid.name (readsList_headItems valid.fits)).imp
    fun _ _ _ parts => exists_clause_of_parts valid parts⟩

end Line

end Dialect

end Bnf

end ParametricGrammar
