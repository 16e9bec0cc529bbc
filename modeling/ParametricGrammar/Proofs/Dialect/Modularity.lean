import Mathlib.Data.List.Induction
import ParametricGrammar.Proofs.Dialect.ClauseTranslation
import ParametricGrammar.Proofs.Dialect.Concatenations
import ParametricGrammar.Proofs.Dialect.Displacement
/-!
# Modular grammars

Two texts that define different names are compiled together to what they are compiled to each on
its own.
-/

namespace ParametricGrammar

namespace Bnf

open Dialect

variable {source source' : List Char} {root tree : Tree} {clauses clauses' others : List Clause}
  {entries entries' : List (String × Production)}

/-! ### Productions of clauses at other places -/

private theorem agree_clausesBody
    (all : List.Forall₂ (SameClause source source') clauses clauses') :
    Agree Eq (clausesBody source clauses) (clausesBody source' clauses') := by
  have arms : Agree (List.Forall₂ Eq)
      (clauses.mapM fun clause =>
        (bodyOf source clause.body).map fun body => (clause.pattern, body))
      (clauses'.mapM fun clause =>
        (bodyOf source' clause.body).map fun body => (clause.pattern, body)) :=
    Agree.mapM all fun clause clause' same => (agree_bodyOf same.body).map
      fun body body' equal => by rw [same.pattern, equal]
  refine arms.bind fun arms arms' equal => ?_
  rw [List.forall₂_eq_eq_eq] at equal
  subst equal
  split
  · exact .ok rfl
  · exact .ok rfl

private theorem isSome_inconsistent?_eq (formals : List Formal)
    (all : List.Forall₂ (SameClause source source') clauses clauses') :
    (inconsistent? formals clauses).isSome = (inconsistent? formals clauses').isSome := by
  induction all with
  | nil => rfl
  | cons same _ induction =>
      simp only [inconsistent?, Option.isSome_map, List.find?_cons, same.formals] at induction ⊢
      split
      · rfl
      · exact induction

private theorem isSome_duplicate?_eq (earlier : List Parameters)
    (all : List.Forall₂ (SameClause source source') clauses clauses') :
    (duplicate? earlier clauses).isSome = (duplicate? earlier clauses').isSome := by
  induction all generalizing earlier with
  | nil => rfl
  | cons same _ induction =>
      rw [duplicate?, duplicate?, same.pattern]
      split
      · rfl
      · exact induction _

private theorem findSome?_number_eq
    (all : List.Forall₂ (SameClause source source') clauses clauses') :
    clauses.findSome? (·.number) = clauses'.findSome? (·.number) := by
  induction all with
  | nil => rfl
  | cons same _ induction =>
      rw [List.findSome?_cons, List.findSome?_cons, same.number, induction]

private theorem agree_productionOf
    (all : List.Forall₂ (SameClause source source') clauses clauses') :
    Agree Eq (productionOf source clauses) (productionOf source' clauses') := by
  have numbers := findSome?_number_eq all
  have bodies := agree_clausesBody all
  have duplicates := isSome_duplicate?_eq [] all
  cases all with
  | nil => exact .error
  | @cons first first' rest rest' same others =>
      have consistent := isSome_inconsistent?_eq first.formals others
      rw [productionOf, productionOf, ← same.formals, ← numbers]
      generalize inconsistent? first.formals rest = left,
        inconsistent? first.formals rest' = right at consistent
      generalize duplicate? [] (first :: rest) = left',
        duplicate? [] (first' :: rest') = right' at duplicates
      cases left <;> cases right <;> cases consistent
      · cases left' <;> cases right' <;> cases duplicates
        · refine bodies.bind fun body body' equal => ?_
          subst equal
          exact .ok rfl
        · exact .error
      · exact .error

/-! ### Groups -/

private theorem nodup_eraseDups (names : List String) : names.eraseDups.Nodup := by
  induction names using List.reverseRecOn with
  | nil => exact .nil
  | append_singleton names name induction =>
      rw [List.eraseDups_append]
      by_cases known : name ∈ names
      · simpa [List.removeAll, known] using induction
      · have fresh : ∀ other ∈ names, other ≠ name := fun other among same => known (same ▸ among)
        simpa [List.removeAll, known, List.eraseDups_cons, List.nodup_append, induction] using fresh

private theorem map_name_eq (all : List.Forall₂ (SameClause source source') clauses clauses') :
    clauses.map Clause.name = clauses'.map Clause.name :=
  map_eq_of_forall₂ all fun _ _ same => same.name

/-- Clauses at other places have the same groups. -/
theorem forall₂_groups (all : List.Forall₂ (SameClause source source') clauses clauses') :
    List.Forall₂ (fun group group' => group.1 = group'.1 ∧
      List.Forall₂ (SameClause source source') group.2 group'.2) (groups clauses)
      (groups clauses') := by
  rw [groups, groups, map_name_eq all, List.forall₂_map_left_iff, List.forall₂_map_right_iff,
    List.forall₂_same]
  refine fun name _ => ⟨rfl, List.rel_filter (fun clause clause' same => ?_) all⟩
  simp [same.name]

private theorem map_fst_groups (clauses : List Clause) :
    (groups clauses).map Prod.fst = (clauses.map Clause.name).eraseDups := by
  rw [groups, List.map_map]
  exact List.map_id _

private theorem filter_name_eq_nil {name : String} (other : name ∉ clauses.map Clause.name) :
    (clauses.filter fun clause => clause.name = name) = [] :=
  List.filter_eq_nil_iff.mpr fun clause member same =>
    other (List.mem_map.mpr ⟨clause, member, of_decide_eq_true same⟩)

/-- Clauses of different names have groups of their own. -/
theorem groups_append
    (disjoint : ∀ name ∈ clauses.map Clause.name, name ∉ others.map Clause.name) :
    groups (clauses ++ others) = groups clauses ++ groups others := by
  have fresh : (others.map Clause.name).removeAll (clauses.map Clause.name) =
      others.map Clause.name := by
    rw [List.removeAll, List.filter_eq_self]
    intro name among
    have other : name ∉ clauses.map Clause.name := fun known => disjoint name known among
    simpa using other
  rw [groups, List.map_append, List.eraseDups_append, fresh, List.map_append]
  congr 1
  · refine List.map_congr_left fun name among => ?_
    rw [List.filter_append, filter_name_eq_nil (disjoint name (List.mem_eraseDups.mp among)),
      List.append_nil]
  · refine List.map_congr_left fun name among => ?_
    rw [List.filter_append, filter_name_eq_nil fun known =>
      disjoint name known (List.mem_eraseDups.mp among), List.nil_append]

/-! ### Productions of groups -/

/-- The productions that clauses form, with their names. -/
def productionsOf (source : List Char) (clauses : List Clause) :
    Except CompileError (List (String × Production)) :=
  (groups clauses).mapM fun group =>
    (productionOf source group.2).map fun production => (group.1, production)

private theorem grammarOf_eq (source : List Char) (root : Tree) : grammarOf source root = (do
    let clauses ← (root.children "production").mapM (Clause.ofTree source)
    let productions ← productionsOf source clauses
    return .ofList productions) := rfl

/-- The names of productions are those of their clauses. -/
theorem map_fst_of_productionsOf (formed : productionsOf source clauses = .ok entries) :
    entries.map Prod.fst = (clauses.map Clause.name).eraseDups := by
  rw [← map_fst_groups]
  refine map_eq_of_forall₂ (mapM_eq_ok_iff.mp formed).flip fun entry group result => ?_
  obtain ⟨production, -, rfl⟩ := map_eq_ok_iff.mp result
  rfl

/-- Clauses at other places form the same productions. -/
theorem productionsOf_displaced (all : List.Forall₂ (SameClause source source') clauses clauses')
    (formed : productionsOf source clauses = .ok entries) :
    productionsOf source' clauses' = .ok entries := by
  have agree : Agree (List.Forall₂ Eq) (productionsOf source clauses)
      (productionsOf source' clauses') :=
    Agree.mapM (forall₂_groups all) fun group group' same =>
      (agree_productionOf same.2).map fun production production' equal => by rw [same.1, equal]
  obtain ⟨entries', formed', equal⟩ := (formed ▸ agree).of_ok
  rw [List.forall₂_eq_eq_eq] at equal
  rw [formed', equal]

/-- Clauses of different names form the productions that they form on their own. -/
theorem productionsOf_append
    (disjoint : ∀ name ∈ clauses.map Clause.name, name ∉ others.map Clause.name)
    (formed : productionsOf source clauses = .ok entries)
    (formed' : productionsOf source others = .ok entries') :
    productionsOf source (clauses ++ others) = .ok (entries ++ entries') := by
  rw [productionsOf, groups_append disjoint, mapM_eq_ok_iff]
  exact List.rel_append (mapM_eq_ok_iff.mp formed) (mapM_eq_ok_iff.mp formed')

/-! ### Grammars -/

theorem grammarOf_eq_ok_iff {compiled : Grammar} : grammarOf source root = .ok compiled ↔
    ∃ clauses, (root.children "production").mapM (Clause.ofTree source) = .ok clauses ∧
      productionsOf source clauses = .ok compiled.entries := by
  rw [grammarOf_eq, bind_eq_ok_iff]
  refine exists_congr fun clauses => and_congr_right fun _ => ?_
  rw [bind_eq_ok_iff]
  constructor
  · rintro ⟨entries, formed, same⟩
    obtain rfl := Except.ok.inj same
    have distinct : (entries.map Prod.fst).Nodup := by
      rw [map_fst_of_productionsOf formed]
      exact nodup_eraseDups _
    rw [formed, Grammar.entries_ofList distinct]
  · exact fun formed => ⟨_, formed, congrArg Except.ok (Grammar.ofList_entries compiled)⟩

/-- Clauses of a tree are translated as those of parts that are made of the same. -/
theorem exists_clauses {trees trees' : List Tree}
    (same : trees.map (fun tree => (Part.ofTree source tree).significant) =
      trees'.map fun tree => (Part.ofTree source' tree).significant)
    (translated : trees.mapM (Clause.ofTree source) = .ok clauses) :
    ∃ clauses', trees'.mapM (Clause.ofTree source') = .ok clauses' ∧
      List.Forall₂ (SameClause source source') clauses clauses' := by
  rw [← List.forall₂_eq_eq_eq, List.forall₂_map_left_iff, List.forall₂_map_right_iff] at same
  exact (translated ▸ Agree.mapM same fun _ _ same => agree_clause same).of_ok

private theorem clausesOf_content (source : List Char) (root : Tree) :
    clausesOf (Part.ofTree source root).content =
      (root.children "production").map fun tree => (Part.ofTree source tree).significant := by
  rw [clausesOf, Part.ofTree_eq, List.filter_map, List.map_map, Tree.children]
  simp only [Function.comp_def, name_ofTree]

/-- A tree with the clauses of two others, which define different names, denotes the grammar that
comes of merging theirs. -/
theorem grammarOf_append {left right whole : List Char} {first second both : Tree}
    {one other : Grammar}
    (clauses : clausesOf (Part.ofTree whole both).content =
      clausesOf (Part.ofTree left first).content ++ clausesOf (Part.ofTree right second).content)
    (denotes : grammarOf left first = .ok one) (denotes' : grammarOf right second = .ok other)
    (disjoint : ∀ name ∈ one.names, name ∉ other.names) :
    grammarOf whole both = .ok (one.merge other) := by
  obtain ⟨found, translated, formed⟩ := grammarOf_eq_ok_iff.mp denotes
  obtain ⟨found', translated', formed'⟩ := grammarOf_eq_ok_iff.mp denotes'
  simp only [clausesOf_content] at clauses
  obtain ⟨trees, trees', split, same, same'⟩ := List.map_eq_append_iff.mp clauses
  obtain ⟨moved, movedTranslated, all⟩ := exists_clauses same.symm translated
  obtain ⟨moved', movedTranslated', all'⟩ := exists_clauses same'.symm translated'
  have names : ∀ name ∈ moved.map Clause.name, name ∉ moved'.map Clause.name := by
    intro name among among'
    rw [← map_name_eq all] at among
    rw [← map_name_eq all'] at among'
    refine disjoint name ?_ ?_
    · rwa [Grammar.names, map_fst_of_productionsOf formed, List.mem_eraseDups]
    · rwa [Grammar.names, map_fst_of_productionsOf formed', List.mem_eraseDups]
  refine grammarOf_eq_ok_iff.mpr ⟨moved ++ moved', ?_, ?_⟩
  · rw [split, mapM_eq_ok_iff]
    exact List.rel_append (mapM_eq_ok_iff.mp movedTranslated) (mapM_eq_ok_iff.mp movedTranslated')
  · rw [Grammar.entries_merge disjoint]
    exact productionsOf_append names (productionsOf_displaced all formed)
      (productionsOf_displaced all' formed')

/-! ### Texts -/

/-- A text that goes on with another one in a new line is compiled to the grammar of the first one
merged with that of the second one if they define different names. The productions of the first text
come first, and all keep their order. -/
theorem compile_append {left right : String} {first second : Grammar}
    (compiles : compile left = .ok first) (compiles' : compile right = .ok second)
    (disjoint : ∀ name ∈ first.names, name ∉ second.names) :
    compile (left ++ "\n" ++ right) = .ok (first.merge second) ∧
      (first.merge second).entries = first.entries ++ second.entries := by
  refine ⟨?_, Grammar.entries_merge disjoint⟩
  obtain ⟨tree, parsed, denotes⟩ := exists_tree_of_compile compiles
  obtain ⟨tree', parsed', denotes'⟩ := exists_tree_of_compile compiles'
  have joined : (left ++ "\n" ++ right).toList = left.toList ++ '\n' :: right.toList := by simp
  have enough : ranks.length + brackets.length + 5 ≤ 1024 := by decide
  obtain ⟨whole, read, same⟩ := exists_parseAll_append enough parsed parsed'
  have translated := grammarOf_append same denotes denotes' disjoint
  rw [compile, compileWith, joined, treeOf,
    show setting Dialect.grammar = remembering 1024 from rfl, read]
  exact translated

/-- A text that ends in a comment. -/
def pairText : String := "pair ::= word ',' word # of words"

/-- The grammar of this text, which mentions a name that it does not define. -/
def pairGrammar : Grammar :=
  .ofList [("pair",
    { body := .sequence [.reference "word" [], .literal ",", .reference "word" []] })]

/-- A text that starts with a comment. -/
def wordText : String := "# a word\n[2] word ::= letter+\nletter ::= ['a'-'z'] | '-'\n"

/-- The grammar of this text. -/
def wordGrammar : Grammar :=
  .ofList [
    ("word", { number := some 2, body := .oneOrMore (.reference "letter" []) }),
    ("letter", { body := .first [.chars ⟨[⟨97, 122⟩]⟩, .literal "-"] })]

theorem compile_append_pair_word :
    (compile pairText = .ok pairGrammar ∧ compile wordText = .ok wordGrammar ∧
      ∀ name ∈ pairGrammar.names, name ∉ wordGrammar.names) ∧
    compile (pairText ++ "\n" ++ wordText) = .ok (pairGrammar.merge wordGrammar) ∧
      (pairGrammar.merge wordGrammar).entries = pairGrammar.entries ++ wordGrammar.entries := by
  have compiles : compile pairText = .ok pairGrammar := compile_of_uncached (by decide +kernel)
  have compiles' : compile wordText = .ok wordGrammar := compile_of_uncached (by decide +kernel)
  have disjoint : ∀ name ∈ pairGrammar.names, name ∉ wordGrammar.names := by decide
  exact ⟨⟨compiles, compiles', disjoint⟩, compile_append compiles compiles' disjoint⟩

end Bnf

end ParametricGrammar
