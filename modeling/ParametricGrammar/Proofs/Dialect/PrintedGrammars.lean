import ParametricGrammar.Proofs.Dialect.ClauseTranslation
import ParametricGrammar.Proofs.Dialect.PrintedClauses
/-!
# Printed grammars

A compiled grammar and what its text is compiled to have the same productions in the same order,
with the same numbers and formals, and evaluate every expression in the same way. Unless reading it
exceeds the limit, the text is compiled exactly if every body is one that is read back.
-/

namespace ParametricGrammar

namespace Bnf

namespace Dialect

variable {source : List Char} {name : String} {production : Production}

/-! ### Lines of productions -/

/-- The cases of a body, which is its only case if it has none. -/
def armsOf : Node → List (Parameters × Node)
  | .cases arms => arms
  | body => [(.empty, body)]

end Dialect

end Bnf

open Bnf Dialect

/-- Whether the text of a compiled production is read back. -/
def Production.isReadable (production : Production) : Bool :=
  (armsOf production.body).all fun arm => arm.2.isReadable

/-- Whether the text of a compiled grammar is read back. -/
def Grammar.isReadable (grammar : Grammar) : Bool :=
  grammar.entries.all fun entry => entry.2.isReadable

namespace Bnf

namespace Dialect

theorem armsOf_of_ne {body : Node} (other : ∀ arms, body ≠ .cases arms) :
    armsOf body = [(.empty, body)] := by
  cases body with
  | cases arms => exact absurd rfl (other arms)
  | _ => rfl

/-- The lines of a production: one for each case, the first one with the number. -/
def linesOf (name : String) (production : Production) : List Line :=
  match armsOf production.body with
  | [] => []
  | (pattern, body) :: rest =>
      ⟨production.number, name, production.formals, pattern, body⟩ ::
        rest.map fun (pattern, body) => ⟨none, name, production.formals, pattern, body⟩

private theorem arms_linesOf (name : String) (production : Production) :
    (linesOf name production).map (fun line => (line.pattern, line.body)) =
      armsOf production.body := by
  unfold linesOf
  split
  · rename_i none
    exact none.symm
  · rename_i pattern body rest same
    simp [same, Function.comp_def]

private theorem mem_linesOf {line : Line} (member : line ∈ linesOf name production) :
    line.name = name ∧ line.formals = production.formals ∧
      (line.pattern, line.body) ∈ armsOf production.body := by
  refine ⟨?_, ?_, arms_linesOf name production ▸ List.mem_map_of_mem member⟩
  all_goals
    unfold linesOf at member
    split at member
    · cases member
    · rcases List.mem_cons.mp member with rfl | later
      · rfl
      · obtain ⟨_, -, rfl⟩ := List.mem_map.mp later
        rfl

private theorem caseHead_empty (formals : List Formal) :
    caseHead formals .empty = formals.map Formal.text := by
  refine List.map_congr_left fun formal _ => ?_
  cases formal <;> rfl

/-- Lines are printed one after the other. -/
theorem toList_join_clauseText (lines : List Line) :
    (String.join (lines.map fun line =>
      clauseText line.number line.name (caseHead line.formals line.pattern) line.body)).toList =
        textOf (lines.map Line.item) := by
  rw [String.toList_join, textOf, List.flatMap_map, List.flatMap_map]
  exact List.flatMap_congr fun line _ => line.toList_clauseText

/-- A production is printed as its lines. -/
theorem toList_productionText (name : String) (production : Production) :
    (productionText name production).toList = textOf ((linesOf name production).map Line.item) := by
  obtain ⟨number, formals, body⟩ := production
  rw [← toList_join_clauseText]
  unfold productionText linesOf
  dsimp only
  split
  · rfl
  · rw [String.toList_append, String.toList_join, String.toList_join]
    simp [armsOf, Function.comp_def]
  · rename_i none several
    have plain : armsOf body = [(.empty, body)] := by
      refine armsOf_of_ne fun arms same => ?_
      cases arms with
      | nil => exact none same
      | cons arm rest => exact several _ _ rest same
    rw [plain, String.toList_join]
    simp [caseHead_empty]

/-- The lines of a grammar. -/
def grammarLines (grammar : Grammar) : List Line :=
  grammar.entries.flatMap fun entry => linesOf entry.1 entry.2

/-- A grammar is printed as the lines of its productions. -/
theorem toList_text (grammar : Grammar) :
    grammar.text.toList = textOf ((grammarLines grammar).map Line.item) := by
  rw [Grammar.text, String.toList_join, grammarLines, textOf, List.flatMap_map, List.flatMap_map,
    List.flatMap_assoc]
  refine List.flatMap_congr fun entry _ => ?_
  rw [toList_productionText, textOf, List.flatMap_map]

/-! ### Compiled productions -/

private theorem armsOf_of_compiled {formals : List Formal} {body : Node}
    (compiled : CompiledBody formals body) :
    armsOf body ≠ [] ∧ ∀ arm ∈ armsOf body, arm.1.Fits formals ∧ Compiled arm.2 := by
  cases compiled with
  | plain compiled =>
      rw [armsOf_of_ne compiled.ne_cases]
      simpa using ⟨Parameters.fits_empty formals, compiled⟩
  | cases some _ _ each => exact ⟨some, each⟩

/-- The body that cases form. -/
def bodyOfArms : List (Parameters × Node) → Node
  | [(pattern, body)] => if pattern.isEmpty then body else .cases [(pattern, body)]
  | arms => .cases arms

theorem clausesBody_eq (clauses : List Clause) : clausesBody source clauses =
    (clauses.mapM fun clause =>
      (bodyOf source clause.body).map fun body => (clause.pattern, body)).map bodyOfArms := by
  unfold clausesBody
  cases clauses.mapM fun clause =>
      (bodyOf source clause.body).map fun body => (clause.pattern, body) with
  | error error => rfl
  | ok arms => rcases arms with _ | ⟨_, _ | ⟨_, _⟩⟩ <;> rfl

/-- Cases that mean those of a compiled body form a body that is evaluated alike. -/
theorem alike_bodyOfArms {formals : List Formal} {body : Node} {arms : List (Parameters × Node)}
    (compiled : CompiledBody formals body)
    (all : List.Forall₂ (fun arm other => arm.1 = other.1 ∧ Alike arm.2 other.2) (armsOf body)
      arms) : Alike body (bodyOfArms arms) := by
  cases compiled with
  | plain compiled =>
      rw [armsOf_of_ne compiled.ne_cases] at all
      obtain ⟨⟨pattern, other⟩, _, ⟨rfl, alike⟩, none, rfl⟩ := List.forall₂_cons_left_iff.mp all
      cases none
      exact alike
  | @cases before _ patterned _ _ =>
      have kept : bodyOfArms arms = .cases arms := by
        unfold bodyOfArms
        split
        · obtain ⟨arm, _, head, none, rfl⟩ := List.forall₂_cons_right_iff.mp all
          cases none
          have bound := patterned arm rfl
          rw [head.1] at bound
          simp [bound]
        · rfl
      rw [kept]
      exact .cases all

/-- The lines of a compiled production can be read back. -/
theorem valid_linesOf (valid : isName name.toList = true)
    (compiled : CompiledProduction production) :
    ∀ line ∈ linesOf name production, line.Valid := by
  intro line member
  obtain ⟨named, formals, arm⟩ := mem_linesOf member
  obtain ⟨fits, body⟩ := (armsOf_of_compiled compiled.body).2 _ arm
  exact ⟨named ▸ valid, formals ▸ compiled.distinct, formals ▸ fits, body⟩

/-- The cases of a compiled body have distinct patterns. -/
theorem nodup_patterns {formals : List Formal} {body : Node}
    (compiled : CompiledBody formals body) : ((armsOf body).map Prod.fst).Nodup := by
  cases compiled with
  | plain compiled =>
      rw [armsOf_of_ne compiled.ne_cases]
      simp
  | cases _ _ distinct _ => exact distinct

/-- The number of a production is that of its lines. -/
theorem findSome?_linesOf (some : armsOf production.body ≠ []) :
    (linesOf name production).findSome? Line.number = production.number := by
  unfold linesOf
  split
  · rename_i none
    exact absurd none some
  · rw [List.findSome?_cons]
    cases production.number with
    | some number => rfl
    | none =>
        refine List.findSome?_eq_none_iff.mpr fun line member => ?_
        obtain ⟨_, -, rfl⟩ := List.mem_map.mp member
        rfl

section

variable {clauses : List Clause} {described : List Line}

private theorem findSome?_of_describes
    (describes : List.Forall₂ (fun clause line => Line.Describes line source clause) clauses
      described) : clauses.findSome? Clause.number = described.findSome? Line.number := by
  induction describes with
  | nil => rfl
  | cons head _ induction =>
      rw [List.findSome?_cons, List.findSome?_cons, head.number, induction]

/-- What the bodies of clauses are translated to is evaluated like the bodies of their lines. -/
theorem alike_of_describes {arms : List (Parameters × Node)}
    (describes : List.Forall₂ (fun clause line => Line.Describes line source clause) clauses
      described)
    (found : clauses.mapM (fun clause =>
      (bodyOf source clause.body).map fun body => (clause.pattern, body)) = .ok arms) :
    List.Forall₂ (fun arm other => arm.1 = other.1 ∧ Alike arm.2 other.2)
      (described.map fun line => (line.pattern, line.body)) arms := by
  rw [List.forall₂_map_left_iff]
  refine forall₂_comp describes.flip (mapM_eq_ok_iff.mp found) fun describes result => ?_
  obtain ⟨body, translated, rfl⟩ := map_eq_ok_iff.mp result
  exact ⟨describes.pattern.symm, describes.body.body body translated⟩

end

section

variable {clauses : List Clause} (compiled : CompiledProduction production)
  (describes : List.Forall₂ (fun clause line => Line.Describes line source clause) clauses
    (linesOf name production))
include compiled describes

/-- Clauses of the lines of a production form a production with its number and formals, if their
bodies are translated. -/
theorem productionOf_eq : productionOf source clauses = (clausesBody source clauses).map fun body =>
    ⟨production.number, production.formals, body⟩ := by
  obtain ⟨some, -⟩ := armsOf_of_compiled compiled.body
  have formals : ∀ clause ∈ clauses, clause.formals = production.formals :=
    forall_of_forall₂ describes.flip fun line member clause describes =>
      describes.formals.trans (mem_linesOf member).2.1
  have patterns : clauses.map Clause.pattern = (armsOf production.body).map Prod.fst := by
    rw [← arms_linesOf name, List.map_map]
    exact map_eq_of_forall₂ describes fun _ _ describes => describes.pattern
  have number : clauses.findSome? Clause.number = production.number := by
    rw [findSome?_of_describes describes, findSome?_linesOf some]
  cases clauses with
  | nil => exact absurd (List.map_eq_nil_iff.mp patterns.symm) some
  | cons first rest =>
      rw [List.forall_mem_cons] at formals
      have consistent : inconsistent? first.formals rest = none :=
        inconsistent?_eq_none_iff.mpr fun clause member =>
          (formals.2 clause member).trans formals.1.symm
      have fresh : duplicate? [] (first :: rest) = none :=
        (duplicate?_eq_none_iff .nil).mpr (patterns ▸ nodup_patterns compiled.body)
      simp only [productionOf, consistent, fresh]
      rw [number, formals.1]
      cases clausesBody source (first :: rest) <;> rfl

/-- Clauses of the lines of a production form a production that is alike. -/
theorem alike_of_productionOf {again : Production}
    (found : productionOf source clauses = .ok again) : production.Alike again := by
  rw [productionOf_eq compiled describes, clausesBody_eq] at found
  obtain ⟨body, bodies, rfl⟩ := map_eq_ok_iff.mp found
  obtain ⟨arms, translated, rfl⟩ := map_eq_ok_iff.mp bodies
  have all := alike_of_describes describes translated
  rw [arms_linesOf] at all
  exact ⟨rfl, rfl, alike_bodyOfArms compiled.body all⟩

/-- Clauses of the lines of a production form one exactly if all their bodies are read back. -/
theorem isSome_productionOf :
    (productionOf source clauses).toOption.isSome = production.isReadable := by
  rw [productionOf_eq compiled describes, clausesBody_eq, isSome_map, isSome_map, isSome_mapM,
    Production.isReadable, ← arms_linesOf name, List.all_map]
  refine all_eq_of_forall₂ describes fun clause line describes => ?_
  rw [isSome_map]
  exact describes.body.reads

end

/-! ### Groups of clauses -/

/-- The trees of lines are translated to clauses that the lines describe. -/
theorem exists_clauses {described : List Line} {root : Tree}
    (stood : Stood "production" (described.map Line.item) source root.content) :
    ∃ clauses, (root.children "production").mapM (Clause.ofTree source) = .ok clauses ∧
      List.Forall₂ (fun clause line => Line.Describes line source clause) clauses described := by
  unfold Stood at stood
  rw [List.forall₂_map_right_iff] at stood
  obtain ⟨clauses, translated, described⟩ := exists_of_forall₂ stood
  exact ⟨clauses, mapM_eq_ok_iff.mpr translated, described.flip⟩

/-- Clauses of the lines of some productions stand production by production. -/
theorem exists_groups {entries : List (String × Production)} {clauses : List Clause}
    (describes : List.Forall₂ (fun clause line => Line.Describes line source clause) clauses
      (entries.flatMap fun entry => linesOf entry.1 entry.2)) :
    ∃ found : List (String × List Clause), found.flatMap Prod.snd = clauses ∧
      List.Forall₂ (fun group entry => group.1 = entry.1 ∧
        List.Forall₂ (fun clause line => Line.Describes line source clause) group.2
          (linesOf entry.1 entry.2)) found entries := by
  induction entries generalizing clauses with
  | nil =>
      cases describes
      exact ⟨[], rfl, .nil⟩
  | cons entry entries induction =>
      rw [List.flatMap_cons] at describes
      have front := List.forall₂_take_append _ _ _ describes
      have behind := List.forall₂_drop_append _ _ _ describes
      obtain ⟨found, flat, all⟩ := induction behind
      refine ⟨(entry.1, _) :: found, ?_, .cons ⟨rfl, front⟩ all⟩
      rw [List.flatMap_cons, flat, List.take_append_drop]

/-- The grammar of a tree consists of the productions of its groups of clauses. -/
theorem grammarOf_of_clauses {root : Tree} {clauses : List Clause}
    (parsed : (root.children "production").mapM (Clause.ofTree source) = .ok clauses) :
    grammarOf source root = ((groups clauses).mapM fun group =>
      (productionOf source group.2).map fun production => (group.1, production)).map
        Grammar.ofList := by
  rw [grammarOf, parsed]
  rfl

/-- The trees of the lines of a compiled grammar are translated exactly if all its bodies are read
back, and then to an alike grammar. -/
theorem grammarOf_printed {grammar : Grammar} {root : Tree} (compiled : CompiledGrammar grammar)
    (stood : Stood "production" ((grammarLines grammar).map Line.item) source root.content) :
    (grammarOf source root).toOption.isSome = grammar.isReadable ∧
      ∀ again, grammarOf source root = .ok again → Grammar.Alike grammar again := by
  obtain ⟨clauses, parsed, described⟩ := exists_clauses stood
  obtain ⟨groups, rfl, each⟩ := exists_groups described
  have names : groups.map Prod.fst = grammar.entries.map Prod.fst :=
    map_eq_of_forall₂ each fun _ _ holds => holds.1
  have both := (List.forall₂_and_left _ _).mpr ⟨compiled, each.flip⟩
  have grouped : Bnf.groups (groups.flatMap Prod.snd) = groups := by
    refine groups_flatMap ?_ ?_ ?_
    · refine forall_of_forall₂ both fun entry _ group holds none => ?_
      obtain ⟨⟨-, production⟩, -, described⟩ := holds
      rw [none, List.forall₂_nil_left_iff] at described
      refine (armsOf_of_compiled production.body).1 ?_
      rw [← arms_linesOf entry.1, described, List.map_nil]
    · refine forall_of_forall₂ both fun entry _ group holds => ?_
      obtain ⟨-, named, described⟩ := holds
      refine forall_of_forall₂ described.flip fun line member clause describes => ?_
      exact describes.name.trans ((mem_linesOf member).1.trans named.symm)
    · rw [names]
      exact grammar.nodup
  rw [grammarOf_of_clauses parsed, grouped]
  refine ⟨?_, fun again found => ?_⟩
  · rw [isSome_map, isSome_mapM, Grammar.isReadable]
    refine (all_eq_of_forall₂ both fun entry group holds => ?_).symm
    obtain ⟨⟨-, production⟩, -, described⟩ := holds
    rw [isSome_map, isSome_productionOf production described]
  · obtain ⟨productions, translated, rfl⟩ := map_eq_ok_iff.mp found
    have all : List.Forall₂ (fun entry other => entry.1 = other.1 ∧ entry.2.Alike other.2)
        grammar.entries productions := by
      refine forall₂_comp both (mapM_eq_ok_iff.mp translated) fun holds result => ?_
      obtain ⟨⟨-, production⟩, named, described⟩ := holds
      obtain ⟨again, formed, rfl⟩ := map_eq_ok_iff.mp result
      exact ⟨named.symm, alike_of_productionOf production described formed⟩
    have same' : grammar.entries.map Prod.fst = productions.map Prod.fst :=
      map_eq_of_forall₂ all fun _ _ holds => holds.1
    have distinct : (productions.map Prod.fst).Nodup := same' ▸ grammar.nodup
    rw [Grammar.Alike, Grammar.entries_ofList distinct]
    exact all

/-! ### Texts -/

/-- The lines of a compiled grammar can be read back. -/
theorem valid_grammarLines {grammar : Grammar} (compiled : CompiledGrammar grammar) :
    ∀ line ∈ grammarLines grammar, line.Valid := by
  intro line member
  obtain ⟨entry, among, inside⟩ := List.mem_flatMap.mp member
  exact valid_linesOf (compiled entry among).1 (compiled entry among).2 line inside

/-- The text of a compiled grammar is derived as a whole, with a tree for each of its lines. -/
theorem exists_tree_of_text {grammar : Grammar} (compiled : CompiledGrammar grammar) :
    ∃ nesting : ℕ, ∃ root last, last.rest = [] ∧
      Derives Dialect.grammar nesting outside (.node (.call "grammar")) .empty
        (.start grammar.text.toList) (.matched [root] last) ∧
      Stood "production" ((grammarLines grammar).map Line.item) grammar.text.toList
        root.content := by
  obtain ⟨nesting, each⟩ : ∃ nesting, ∀ item ∈ (grammarLines grammar).map Line.item,
      ReadsClause nesting item.chars item.stands := by
    refine exists_nesting (fun le reads => reads.mono le) fun item member => ?_
    obtain ⟨line, among, rfl⟩ := List.mem_map.mp member
    exact Line.exists_reads (valid_grammarLines compiled line among)
  rw [toList_text]
  exact ⟨_, exists_tree_of_reads .nil each⟩

/-- The text of a compiled grammar is compiled to what the trees of its lines are translated to,
unless reading it exceeds the limit. -/
theorem compile_text {grammar : Grammar} (compiled : CompiledGrammar grammar) :
    (∃ root : Tree,
      Stood "production" ((grammarLines grammar).map Line.item) grammar.text.toList root.content ∧
        compile grammar.text = grammarOf grammar.text.toList root) ∨
      compile grammar.text = .error (.run (.recursionLimitExceeded 1024)) := by
  obtain ⟨_, root, last, ends, derives, stood⟩ := exists_tree_of_text compiled
  obtain parsed | exceeded :
      ((setting Dialect.grammar).parseAll "grammar" grammar.text.toList).1 = .ok root ∨
        ((setting Dialect.grammar).parseAll "grammar" grammar.text.toList).1 =
          .error (.recursionLimitExceeded 1024) := Setting.parseAll_or_exceeded derives ends
  · refine .inl ⟨root, stood, ?_⟩
    rw [compile, compileWith, treeOf, parsed]
    rfl
  · refine .inr ?_
    rw [compile, compileWith, treeOf, exceeded]
    rfl

/-- The text of a compiled grammar is compiled to nothing but an alike grammar. -/
theorem alike_of_compile_text {grammar again : Grammar} (compiled : CompiledGrammar grammar)
    (compiles : compile grammar.text = .ok again) : Grammar.Alike grammar again := by
  rcases compile_text compiled with ⟨root, stood, translates⟩ | exceeded
  · exact (grammarOf_printed compiled stood).2 again (translates ▸ compiles)
  · cases exceeded.symm.trans compiles

end Dialect

end Bnf

open Bnf Dialect

/-- Two grammars have productions of the same names, numbers and formals in the same order, and
evaluate every expression alike at every place, under every limit, with and without the cache. -/
structure Grammar.MeansSame (left right : Grammar) : Prop where
  productions :
    (left.entries.map fun (name, production) => (name, production.number, production.formals)) =
      right.entries.map fun (name, production) => (name, production.number, production.formals)
  parse (cached : Bool) (limit : ℕ) (text : List Char) (offset : ℕ) (parameters : Parameters)
    (node : Node) (memory : Memory) :
    Setting.parse ⟨left, cached, limit⟩ text offset parameters node memory =
      Setting.parse ⟨right, cached, limit⟩ text offset parameters node memory
  parseAll (cached : Bool) (limit : ℕ) (root : String) (text : List Char) :
    Setting.parseAll ⟨left, cached, limit⟩ root text =
      Setting.parseAll ⟨right, cached, limit⟩ root text

private theorem Grammar.Alike.meansSame {left right : Grammar} (alike : Grammar.Alike left right) :
    left.MeansSame right where
  productions := map_eq_of_forall₂ alike fun entry other ⟨name, production⟩ => by
    simp [name, production.number, production.formals]
  parse cached limit _ _ _ _ _ := by rw [alike.parse_eq cached limit]
  parseAll cached limit _ _ := by rw [alike.parseAll_eq cached limit]

/-- Printing a compiled grammar never changes its meaning silently: if what is printed is compiled
at all, then to a grammar that means the same. -/
theorem Grammar.text_keeps_meaning {text : String} {grammar again : Grammar}
    (compiles : compile text = .ok grammar) (printed : compile grammar.text = .ok again) :
    grammar.MeansSame again :=
  (alike_of_compile_text (compiledGrammar_of_compile compiles) printed).meansSame

/-- Two clauses of one production, with a set that a difference leaves and a choice in a choice. -/
def listText : String :=
  "[7] list(n,block-in) ::= ( . - 'z' )+ list(n+1,c)\nlist(n,c) ::= 'a' | ( 'b' | 'cd' )\n"

/-- The grammar of this text. -/
def listGrammar : Grammar :=
  .ofList
    [ ("list",
        ⟨some 7, [.n, .c],
          .cases
            [ ({ c := some .blockIn },
                .sequence
                  [ .oneOrMore (.chars ⟨[⟨0, 121⟩, ⟨123, 0x10FFFF⟩]⟩),
                    .reference "list" [.indent true false 1, .context] ]),
              ({}, .first [.literal "a", .first [.literal "b", .literal "cd"]]) ]⟩) ]

/-- The grammar of the text that it is printed as: the set is a choice of its ranges, and the choice
in the choice is gone. -/
def printedListGrammar : Grammar :=
  .ofList
    [ ("list",
        ⟨some 7, [.n, .c],
          .cases
            [ ({ c := some .blockIn },
                .sequence
                  [ .oneOrMore (.first
                      [.chars ⟨[⟨0, 121⟩]⟩, .chars ⟨[⟨123, 0x10FFFF⟩]⟩]),
                    .reference "list" [.indent true false 1, .context] ]),
              ({}, .first [.literal "a", .literal "b", .literal "cd"]) ]⟩) ]

theorem text_keeps_meaning_list :
    compile listText = .ok listGrammar ∧ compile listGrammar.text = .ok printedListGrammar ∧
      listGrammar ≠ printedListGrammar ∧ listGrammar.MeansSame printedListGrammar := by
  have compiles : compile listText = .ok listGrammar := compile_of_uncached (by decide +kernel)
  have printed : compile listGrammar.text = .ok printedListGrammar :=
    compile_of_uncached (by decide +kernel)
  exact ⟨compiles, printed, by decide +kernel, Grammar.text_keeps_meaning compiles printed⟩

/-- What is printed for a compiled grammar is compiled again exactly if it has no set without
characters, no argument with the least offset behind `n`, and no lookbehind for a row, in which a
difference results, and if reading it stays within the limit. -/
theorem Grammar.text_compiles_iff {text : String} {grammar : Grammar}
    (compiles : compile text = .ok grammar) :
    (∃ again, compile grammar.text = .ok again) ↔
      grammar.isReadable = true ∧
        compile grammar.text ≠ .error (.run (.recursionLimitExceeded 1024)) := by
  have compiled := compiledGrammar_of_compile compiles
  rcases compile_text compiled with ⟨root, stood, translates⟩ | exceeded
  · have readable := (grammarOf_printed compiled stood).1
    rw [translates, ← readable]
    cases grammarOf grammar.text.toList root with
    | ok again => simp [Except.toOption]
    | error error => simp [Except.toOption]
  · simp [exceeded]

/-- A lookbehind for a difference from the characters of a production. -/
def behindText : String :=
  "foo ::= 'x'\na ::= [ lookbehind = foo - 'y' ]"

/-- The grammar of this text: the difference is a row with a lookahead. -/
def behindGrammar : Grammar :=
  .ofList
    [ ("foo", ⟨none, [], .literal "x"⟩),
      ("a", ⟨none, [],
        .lookbehind (.sequence [.lookahead (.literal "y") false, .reference "foo" []])⟩) ]

theorem text_compiles_iff_behind :
    compile behindText = .ok behindGrammar ∧
      ¬ ∃ again, compile behindGrammar.text = .ok again := by
  have compiles : compile behindText = .ok behindGrammar :=
    compile_of_uncached (by decide +kernel)
  rw [Grammar.text_compiles_iff compiles]
  exact ⟨compiles, by decide +kernel⟩

/-- The text of a compiled grammar without a set of characters may be turned down. -/
theorem behindText_turned_down :
    compile behindText = .ok behindGrammar ∧
      compile behindGrammar.text =
        .error (.notACharSet "[ lookahead ≠ 'y' ] foo" ⟨33, 58⟩) :=
  ⟨compile_of_uncached (by decide +kernel), compile_of_uncached (by decide +kernel)⟩

end ParametricGrammar
