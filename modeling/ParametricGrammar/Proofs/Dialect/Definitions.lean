import Mathlib.Data.List.Nodup
import ParametricGrammar.Proofs.Completeness
import ParametricGrammar.Proofs.Dialect.Clauses
import ParametricGrammar.Proofs.Dialect.Phrases
/-!
# Texts of definitions

A text of clauses without section numbers and parameters, each on a line of its own, is compiled to
the grammar of their names and of what their bodies stand for.
-/

namespace ParametricGrammar

namespace Bnf

namespace Dialect

/-- A clause without a number and without literals forms the production of its body. -/
theorem productionOf_singleton {source : List Char} {clause : Clause} {meaning : Meaning}
    (pattern : clause.pattern = .empty) (number : clause.number = none)
    (denotes : Denotes source clause.body meaning) :
    productionOf source [clause] = .ok { formals := clause.formals, body := meaning.node } := by
  obtain ⟨name, formals, _, _, body, span⟩ := clause
  subst pattern number
  simp only [productionOf, clausesBody, List.mapM_cons, denotes.body]
  rfl

/-- Clauses whose groups form productions are translated to these. -/
theorem grammarOf_of_groups {source : List Char} {root : Tree} {clauses : List Clause}
    {entries : List (String × Production)}
    (translated : (root.children "production").mapM (Clause.ofTree source) = .ok clauses)
    (formed : List.Forall₂ (fun group entry => group.1 = entry.1 ∧
      productionOf source group.2 = .ok entry.2) (groups clauses) entries) :
    grammarOf source root = .ok (.ofList entries) := by
  have productions : (groups clauses).mapM (fun group =>
      (productionOf source group.2).map fun production => (group.1, production)) = .ok entries := by
    refine mapM_eq_ok_iff.mpr (formed.imp fun group entry forms => ?_)
    rw [forms.2, forms.1]
    rfl
  rw [grammarOf, translated]
  exact congrArg (fun result => result >>= fun productions => pure (Grammar.ofList productions))
    productions

/-- What is taken as a text of clauses is compiled from a tree that has a part for each of them. -/
theorem exists_root_of_takes {chars : List Char} {items : List Item}
    (takes : Takes 1024 (.call "grammar") chars [] (one "grammar" fun source tree =>
      Stood "production" items source tree.content)) :
    ∃ root, compile (String.ofList chars) = grammarOf chars root ∧
      Stood "production" items chars root.content := by
  obtain ⟨root, last, ends, derives, stood⟩ := exists_tree_of_takes takes
  have parsed : ((setting grammar).parseAll "grammar" chars).1 = .ok root :=
    Setting.parseAll_of_derives derives ends
  refine ⟨root, ?_, stood⟩
  rw [compile, compileWith, String.toList_ofList, treeOf, parsed]
  rfl

/-- What is read as one clause is compiled to the production that the clause forms. -/
theorem compile_of_clause {chars : List Char} {stands : Stands} {name : String}
    {production : Production} (reads : ReadsClause 1014 chars stands)
    (forms : ∀ source tree, stands source tree → ∃ clause, Clause.ofTree source tree = .ok clause ∧
      clause.name = name ∧ productionOf source [clause] = .ok production) :
    compile (String.ofList chars) = .ok (.ofList [(name, production)]) := by
  have each : ∀ item ∈ [(⟨chars, stands⟩ : Item)], ReadsClause 1014 item.chars item.stands :=
    List.forall_mem_singleton.mpr reads
  have blank : ∀ char ∈ ([] : List Char), isBlank char = true := by simp
  have takes : Takes 1024 (.call "grammar") chars [] _ :=
    (takes_clauses .nil each le_rfl blank).of_eq (by simp [written])
  obtain ⟨root, compiles, stood⟩ := exists_root_of_takes takes
  obtain ⟨tree, _, holds, none, only⟩ := List.forall₂_cons_right_iff.mp stood
  obtain rfl := List.forall₂_nil_right_iff.mp none
  obtain ⟨clause, translated, rfl, formed⟩ := forms _ _ holds
  have clauses : (root.children "production").mapM (Clause.ofTree chars) = .ok [clause] := by
    rw [Tree.children, only]
    exact mapM_eq_ok_iff.mpr (.cons translated .nil)
  have grouped : groups [clause] = [(clause.name, [clause])] := by
    simp [groups, List.eraseDups_cons]
  rw [compiles]
  refine grammarOf_of_groups clauses ?_
  rw [grouped]
  exact .cons ⟨rfl, formed⟩ .nil

/-- A clause that gives a body to a name. -/
structure Definition where
  name : List Char
  body : Alternation
  valid : isName name = true

namespace Definition

/-- How a definition is written. -/
def chars (definition : Definition) : List Char :=
  clauseChars none definition.name none definition.body.chars

/-- The production that a definition stands for, with its name. -/
def entry (definition : Definition) : String × Production :=
  (String.ofList definition.name, { body := definition.body.meaning.node })

/-- A clause is what a definition describes. -/
structure Describes (definition : Definition) (source : List Char) (clause : Clause) : Prop where
  name : clause.name = String.ofList definition.name
  formals : clause.formals = []
  pattern : clause.pattern = .empty
  number : clause.number = none
  body : Denotes source clause.body definition.body.meaning

/-- The text of a definition with the clause that its tree is translated to. -/
def item (definition : Definition) : Item where
  chars := definition.chars
  stands source tree :=
    ∃ clause, Clause.ofTree source tree = .ok clause ∧ definition.Describes source clause

variable {definition : Definition} {definitions : List Definition} {lead : List Char}

private theorem ofTree_of_parts {name : List Char} {stands : Stands} {source : List Char}
    {tree : Tree} (parts : ClauseParts none name none stands source tree) :
    ∃ label body : Tree, label.text source = String.ofList name ∧ stands source body ∧
      Clause.ofTree source tree =
        .ok ⟨label.text source, [], .empty, none, body, ⟨label.start, tree.stop⟩⟩ := by
  obtain ⟨number, ⟨label, named, written⟩, list, body, alternation, holds⟩ := parts
  refine ⟨label, body, written, holds, ?_⟩
  simp only [Clause.ofTree, Tree.required, named, eq_none_of_rel number, eq_none_of_rel list,
    alternation]
  rfl

/-- A definition is taken as a clause that it describes. -/
theorem reads (definition : Definition) :
    ReadsClause definition.body.nesting definition.item.chars definition.item.stands := by
  refine (ReadsClause.of_body definition.body.reads readsLabel_none definition.valid
    readsList_none).imp fun source tree _ parts => ?_
  obtain ⟨label, body, written, denotes, compiled⟩ := ofTree_of_parts parts
  exact ⟨_, compiled, written, rfl, rfl, rfl, denotes⟩

/-! ### Translation -/

/-- A clause that a definition describes forms its production. -/
theorem Describes.productionOf {source : List Char} {clause : Clause}
    (describes : definition.Describes source clause) :
    Bnf.productionOf source [clause] = .ok definition.entry.2 := by
  rw [productionOf_singleton describes.pattern describes.number describes.body, describes.formals]
  rfl

/-- Definitions with names of their own are translated to their productions. -/
theorem grammarOf_of_stood {source : List Char} {root : Tree}
    (distinct : (definitions.map Definition.name).Nodup)
    (stood : Stood "production" (definitions.map item) source root.content) :
    grammarOf source root = .ok (.ofList (definitions.map entry)) := by
  obtain ⟨found, parsed, described⟩ := exists_of_forall₂ (List.forall₂_map_right_iff.mp stood)
  have names : found.map Clause.name = (definitions.map Definition.name).map String.ofList := by
    clear distinct stood parsed
    induction described with
    | nil => rfl
    | cons describes _ induction =>
        simp only [List.map_cons, describes.name, induction]
  have separate : (found.map Clause.name).Nodup := by
    rw [names]
    exact List.Nodup.map (fun _ _ => String.ofList_injective) distinct
  have grouped : groups found = found.map fun clause => (clause.name, [clause]) := by
    have flat : (found.map fun clause => (clause.name, [clause])).flatMap Prod.snd = found := by
      rw [List.flatMap_map]
      exact List.flatMap_singleton' found
    conv_lhs => rw [← flat]
    exact groups_flatMap (by simp) (by simp) (by simpa [Function.comp_def] using separate)
  refine grammarOf_of_groups (mapM_eq_ok_iff.mpr parsed) ?_
  rw [grouped]
  refine List.forall₂_map_left_iff.mpr (List.forall₂_map_right_iff.mpr ?_)
  exact (described.imp fun definition clause describes =>
    ⟨describes.name, describes.productionOf⟩).flip

/-! ### Compilation -/

/-- What is taken as a text of definitions with names of their own is compiled to their
productions. -/
theorem compile_of_takes {chars : List Char} (distinct : (definitions.map Definition.name).Nodup)
    (takes : Takes 1024 (.call "grammar") chars [] (one "grammar" fun source tree =>
      Stood "production" (definitions.map item) source tree.content)) :
    compile (String.ofList chars) = .ok (.ofList (definitions.map entry)) := by
  obtain ⟨root, compiles, stood⟩ := exists_root_of_takes takes
  rw [compiles]
  exact grammarOf_of_stood distinct stood

/-- A text of definitions with names of their own is compiled to their productions, if its bodies
nest no deeper than there is room for. -/
theorem compile_textOf (ignorable : Ignorable lead)
    (distinct : (definitions.map Definition.name).Nodup)
    (shallow : ∀ definition ∈ definitions, definition.body.nesting ≤ 1014) :
    compile (String.ofList (lead ++ textOf (definitions.map item))) =
      .ok (.ofList (definitions.map entry)) := by
  have each : ∀ one ∈ definitions.map item, ReadsClause 1014 one.chars one.stands := by
    intro one member
    obtain ⟨definition, among, rfl⟩ := List.mem_map.mp member
    exact definition.reads.mono (shallow definition among)
  exact compile_of_takes distinct (takes_grammar ignorable each le_rfl)

/-- Definitions with line breaks between them are compiled to their productions. -/
theorem compile_written {first : Definition} {more : List Definition}
    (distinct : ((first :: more).map name).Nodup)
    (shallow : ∀ definition ∈ first :: more, definition.body.nesting ≤ 1014) :
    compile (String.ofList (first.chars ++ written ['\n'] (more.map item))) =
      .ok (.ofList ((first :: more).map entry)) := by
  have each : ∀ one ∈ first.item :: more.map item, ReadsClause 1014 one.chars one.stands := by
    intro one member
    obtain ⟨definition, among, rfl⟩ := List.mem_map.mp (List.map_cons ▸ member)
    exact definition.reads.mono (shallow definition among)
  have blank : ∀ char ∈ ([] : List Char), isBlank char = true := by simp
  exact compile_of_takes distinct
    ((takes_clauses .nil each le_rfl blank).of_eq (by simp [item]))

/-- A definition without a line break behind it is compiled to its production. -/
theorem compile_chars (shallow : definition.body.nesting ≤ 1014) :
    compile (String.ofList definition.chars) = .ok (.ofList [definition.entry]) := by
  have distinct : ([definition].map name).Nodup := List.nodup_singleton definition.name
  have compiled := compile_written distinct (List.forall_mem_singleton.mpr shallow)
  simpa [written] using compiled

end Definition

end Dialect

end Bnf

end ParametricGrammar
