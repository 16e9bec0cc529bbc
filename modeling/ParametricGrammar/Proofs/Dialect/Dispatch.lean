import ParametricGrammar.Proofs.Dialect.Modularity
import ParametricGrammar.Proofs.Dialect.PrintedGrammars
import ParametricGrammar.Proofs.Termination
/-!
# Dispatch between clauses

The clauses of a text are read one by one: a name, what each parameter of the head declares, and a
body. The grammar that the text is compiled to has a production for each name, in the order of the
first clauses, with the bodies of all clauses of the name. A call with literal values is answered by
the first clause in the text that the values fit.
-/

namespace ParametricGrammar

/-- Whether a value is of the kind that a formal takes. -/
def Formal.takes : Formal → Value → Bool
  | .n, .int _ | .m, .int _ | .c, .context _ | .t, .chomping _ => true
  | _, _ => false

/-! ### Values and patterns -/

namespace Parameters

private theorem exists_bind_of_takes {formal : Formal} {value : Value}
    (takes : formal.takes value = true) (bound : Parameters) :
    ∃ next, bound.bind formal value = .ok next := by
  cases formal <;> cases value <;> first | exact ⟨_, rfl⟩ | cases takes

private theorem fieldSatisfies_iff {α : Type} [DecidableEq α] {bound wanted : Option α} :
    fieldSatisfies bound wanted = true ↔ ∀ value, wanted = some value → bound = some value := by
  cases wanted <;> simp [fieldSatisfies]

/-- Parameters satisfy a pattern if they bind every formal that it binds to the same value. -/
theorem satisfies_iff {parameters pattern : Parameters} : parameters.satisfies pattern = true ↔
    ∀ formal value, pattern.get? formal = some value → parameters.get? formal = some value := by
  have fields : (∀ formal value, pattern.get? formal = some value →
      parameters.get? formal = some value) ↔
      ((∀ value, pattern.get? .n = some value → parameters.get? .n = some value) ∧
        ∀ value, pattern.get? .m = some value → parameters.get? .m = some value) ∧
      (∀ value, pattern.get? .c = some value → parameters.get? .c = some value) ∧
        ∀ value, pattern.get? .t = some value → parameters.get? .t = some value :=
    ⟨fun all => ⟨⟨all .n, all .m⟩, all .c, all .t⟩, fun ⟨⟨n, m⟩, c, t⟩ formal => by
      cases formal <;> assumption⟩
  rw [fields]
  simp [satisfies, fieldSatisfies_iff, get?, and_assoc]

end Parameters

/-- Literal values of the right kinds are bound to the formals at their positions, whatever the
caller's parameters are. -/
theorem exists_bindArguments_literals (caller name : String) {formals : List Formal}
    {values : List Value} (distinct : formals.Nodup)
    (takes : List.Forall₂ (fun formal value => formal.takes value = true) formals values)
    (bound : Parameters) : ∃ result,
      (∀ formal, result.get? formal =
        ((formals.zip values).lookup formal).or (bound.get? formal)) ∧
      ∀ parameters, bindArguments caller name parameters formals (values.map .literal) bound =
        .ok result := by
  induction takes generalizing bound with
  | nil => exact ⟨bound, fun _ => rfl, fun _ => rfl⟩
  | @cons formal value formals values first _ induction =>
      obtain ⟨fresh, distinct⟩ := List.nodup_cons.mp distinct
      obtain ⟨next, step⟩ := Parameters.exists_bind_of_takes first bound
      obtain ⟨result, gets, binds⟩ := induction distinct next
      refine ⟨result, fun other => ?_, fun parameters => ?_⟩
      · rw [gets, Parameters.get?_bind step, List.zip_cons_cons, List.lookup_cons]
        by_cases same : other = formal
        · subst same
          have none : (formals.zip values).lookup other = none := by
            refine lookup_eq_none_of_notMem fun again => ?_
            obtain ⟨pair, member, rfl⟩ := List.mem_map.mp again
            exact fresh (List.of_mem_zip member).1
          simp [none]
        · simp [beq_false_of_ne same, same]
      · rw [List.map_cons, bindArguments]
        simp only [Binding.resolve, step]
        exact binds parameters

namespace Bnf

open Dialect

/-! ### Clauses as they are written -/

/-- A clause as it stands in a text: its name, the formal that each parameter of its head declares,
with the literal if it is one, and the expression that its body is translated to. -/
structure WrittenClause where
  name : String
  head : List (Formal × Option Value)
  body : Node

namespace WrittenClause

/-- The clause that a tree of a text holds, whatever else stands in the text. -/
def ofTree (source : List Char) (tree : Tree) : Except CompileError WrittenClause := do
  let name ← tree.required "production-name"
  let head ← (parametersOf (tree.child? "parameter-list")).mapM (Head.declared source)
  let body ← tree.required "alternation"
  return ⟨name.text source, head, ← bodyOf source body⟩

/-- The formals of a clause, by position. -/
def formals (clause : WrittenClause) : List Formal := clause.head.map Prod.fst

/-- Whether every literal in the head of a clause is the value at its position. -/
def accepts (clause : WrittenClause) (values : List Value) : Bool :=
  (clause.head.zip values).all fun (declared, value) => declared.2.all (· = value)

/-- What translation makes of a clause before it forms productions. -/
structure Forms (source : List Char) (written : WrittenClause) (clause : Clause) : Prop where
  name : clause.name = written.name
  formals : clause.formals = written.formals
  distinct : clause.formals.Nodup
  pattern : ∀ formal, clause.pattern.get? formal = (written.head.lookup formal).join
  body : bodyOf source clause.body = .ok written.body

end WrittenClause

variable {source : List Char} {tree : Tree} {clauses : List WrittenClause}

/-- A tree that is translated to a clause with a body is read as a clause on its own. -/
theorem WrittenClause.exists_of_ofTree {clause : Clause} {body : Node}
    (found : Clause.ofTree source tree = .ok clause)
    (translated : bodyOf source clause.body = .ok body) :
    ∃ written, WrittenClause.ofTree source tree = .ok written ∧ written.Forms source clause := by
  simp only [Clause.ofTree_eq, bind_eq_ok_iff] at found
  obtain ⟨label, named, number, -, head, heads, alternation, bodied, same⟩ := found
  cases same
  obtain ⟨declared, parameters, formals, distinct, pattern⟩ :=
    Head.exists_of_foldlM_add List.nodup_nil heads
  refine ⟨⟨label.text source, declared, body⟩, ?_, rfl, formals, distinct, fun formal => ?_,
    translated⟩
  · simp only [ofTree, bind_eq_ok_iff]
    exact ⟨label, named, declared, parameters, alternation, bodied, body, translated, rfl⟩
  · have empty : ({} : Head).pattern.get? formal = none := Parameters.get?_empty formal
    rw [pattern, empty, Option.or_none]

/-- The literals of a head are the values at their positions if each is the value that is bound to
its formal. -/
theorem WrittenClause.accepts_iff {head : List (Formal × Option Value)} {values : List Value}
    (distinct : (head.map Prod.fst).Nodup) (counts : values.length = head.length) :
    ((head.zip values).all fun (declared, value) => declared.2.all (· = value)) = true ↔
      ∀ formal literal, (head.lookup formal).join = some literal →
        ((head.map Prod.fst).zip values).lookup formal = some literal := by
  induction head generalizing values with
  | nil => simp
  | cons first head induction =>
      obtain ⟨value, values, rfl⟩ := List.exists_cons_of_length_eq_add_one counts
      obtain ⟨formal, literal⟩ := first
      obtain ⟨fresh, distinct⟩ := List.nodup_cons.mp distinct
      have here : literal.all (· = value) = true ↔
          ∀ wanted, literal = some wanted → some value = some wanted := by
        cases literal <;> simp [eq_comm]
      rw [List.zip_cons_cons, List.all_cons, Bool.and_eq_true, here,
        induction distinct (by simpa using counts), List.map_cons, List.zip_cons_cons]
      constructor
      · rintro ⟨first, later⟩ other wanted found
        rw [List.lookup_cons] at found ⊢
        by_cases same : other = formal
        · subst same
          simpa using first wanted (by simpa using found)
        · rw [beq_false_of_ne same] at found ⊢
          exact later other wanted found
      · intro all
        refine ⟨fun wanted found => ?_, fun other wanted found => ?_⟩
        · simpa [found] using all formal wanted
        · have differ : other ≠ formal := by
            rintro rfl
            rw [lookup_eq_none_of_notMem fresh] at found
            cases found
          have later := all other wanted
          rw [List.lookup_cons, List.lookup_cons, beq_false_of_ne differ] at later
          exact later found

/-! ### Cases of a production -/

/-- A case that a clause gives: its pattern binds the literals of the head. -/
structure WrittenClause.Gives (written : WrittenClause) (arm : Parameters × Node) : Prop where
  pattern : ∀ formal, arm.1.get? formal = (written.head.lookup formal).join
  body : arm.2 = written.body

/-- A body formed of cases is evaluated as the cases are, also where one case without a pattern is
the whole body. -/
theorem alike_cases_bodyOfArms (arms : List (Parameters × Node)) :
    Alike (bodyOfArms arms) (.cases arms) := by
  unfold bodyOfArms
  split
  · rename_i pattern body
    split
    · rename_i isEmpty
      intro production invoke
      funext parameters cursor memory
      have satisfies : parameters.satisfies pattern = true := by
        obtain ⟨n, m, c, t⟩ := pattern
        simp [Parameters.isEmpty] at isEmpty
        simp [Parameters.satisfies, Parameters.fieldSatisfies, isEmpty]
      rw [Node.evaluate, Node.evaluateCases, if_pos satisfies]
    · exact .refl _
  · exact .refl _

private theorem armsOf_bodyOfArms {arms : List (Parameters × Node)}
    (bodies : ∀ arm ∈ arms, Compiled arm.2) : armsOf (bodyOfArms arms) = arms := by
  unfold bodyOfArms
  split
  · rename_i pattern body
    split
    · rename_i isEmpty
      have empty : pattern = .empty := by
        obtain ⟨n, m, c, t⟩ := pattern
        simpa [Parameters.isEmpty, Parameters.empty, and_assoc] using isEmpty
      rw [armsOf_of_ne (bodies _ (List.mem_singleton_self _)).ne_cases, empty]
    · rfl
  · rfl

/-- The first case whose pattern is satisfied is that of the first clause that accepts the
values. -/
theorem find?_arms {bound : Parameters} {formals : List Formal} {values : List Value}
    {arms : List (Parameters × Node)} (distinct : formals.Nodup)
    (counts : values.length = formals.length)
    (gets : ∀ formal, bound.get? formal = (formals.zip values).lookup formal)
    (same : ∀ clause ∈ clauses, clause.formals = formals)
    (gives : List.Forall₂ WrittenClause.Gives clauses arms) :
    (arms.find? fun arm => bound.satisfies arm.1).map Prod.snd =
      (clauses.find? fun clause => clause.accepts values).map WrittenClause.body := by
  induction gives with
  | nil => rfl
  | @cons clause arm clauses arms given _ induction =>
      obtain ⟨first, later⟩ := List.forall_mem_cons.mp same
      have agree : bound.satisfies arm.1 = clause.accepts values := by
        rw [Bool.eq_iff_iff, Parameters.satisfies_iff]
        simp only [given.pattern, gets, ← first]
        have distinct : clause.formals.Nodup := first.symm ▸ distinct
        refine (WrittenClause.accepts_iff distinct ?_).symm
        rw [counts, ← first, WrittenClause.formals, List.length_map]
      rw [List.find?_cons, List.find?_cons, agree]
      cases clause.accepts values with
      | true => exact congrArg some given.body
      | false => exact induction later

/-- A production with a case for each of some clauses. -/
structure FormedOf (clauses : List WrittenClause) (arms : List (Parameters × Node))
    (production : Production) : Prop where
  formals : ∀ clause ∈ clauses, clause.formals = production.formals
  distinct : production.formals.Nodup
  gives : List.Forall₂ WrittenClause.Gives clauses arms
  body : production.body = bodyOfArms arms

private theorem eq_of_productionOf {found : List Clause} {production : Production}
    (formed : productionOf source found = .ok production) :
    found ≠ [] ∧ (∀ clause ∈ found, clause.formals = production.formals) ∧
      clausesBody source found = .ok production.body := by
  unfold productionOf at formed
  split at formed
  · cases formed
  · split at formed
    · cases formed
    · rename_i consistent
      split at formed
      · cases formed
      · obtain ⟨body, bodies, same⟩ := bind_eq_ok_iff.mp formed
        cases same
        exact ⟨List.cons_ne_nil _ _, List.forall_mem_cons.mpr
          ⟨rfl, inconsistent?_eq_none_iff.mp consistent⟩, bodies⟩

private theorem exists_formedOf {found : List Clause} {production : Production}
    (formed : productionOf source found = .ok production)
    (forms : List.Forall₂ (WrittenClause.Forms source) clauses found) :
    ∃ arms, FormedOf clauses arms production := by
  obtain ⟨some, same, bodies⟩ := eq_of_productionOf formed
  have formals : ∀ clause ∈ clauses, clause.formals = production.formals := by
    refine forall_of_forall₂ forms.flip fun clause member written form => ?_
    rw [← form.formals, same clause member]
  rw [clausesBody_eq] at bodies
  obtain ⟨arms, translated, body⟩ := map_eq_ok_iff.mp bodies
  refine ⟨arms, formals, ?_, ?_, body.symm⟩
  · obtain ⟨first, rest, rfl⟩ := List.exists_cons_of_ne_nil some
    obtain ⟨written, others, form, -⟩ := List.forall₂_cons_right_iff.mp forms
    exact same first List.mem_cons_self ▸ form.distinct
  · refine forall₂_comp forms (mapM_eq_ok_iff.mp translated) fun form result => ?_
    obtain ⟨body, translated, rfl⟩ := map_eq_ok_iff.mp result
    exact ⟨form.pattern, Except.ok.inj (translated.symm.trans form.body)⟩

/-- Each production of a text is formed of the clauses of its name, in the order of the text. -/
theorem exists_formedOf_entry {found : List Clause} {entries : List (String × Production)}
    (formed : productionsOf source found = .ok entries)
    (forms : List.Forall₂ (WrittenClause.Forms source) clauses found) :
    ∀ entry ∈ entries, ∃ arms,
      FormedOf (clauses.filter fun clause => clause.name = entry.1) arms entry.2 := by
  refine forall_of_forall₂ (mapM_eq_ok_iff.mp formed) fun group member entry result => ?_
  obtain ⟨production, formed, rfl⟩ := map_eq_ok_iff.mp result
  obtain ⟨name, -, rfl⟩ := List.mem_map.mp member
  exact exists_formedOf formed
    (List.rel_filter (fun written clause form => by simp [form.name]) forms)

/-- If productions are formed, the body of every clause is translated. -/
theorem exists_body_of_productionsOf {found : List Clause} {entries : List (String × Production)}
    (formed : productionsOf source found = .ok entries) :
    ∀ clause ∈ found, ∃ body, bodyOf source clause.body = .ok body := by
  intro clause member
  have group : (clause.name, found.filter fun other => other.name = clause.name) ∈ groups found :=
    List.mem_map.mpr ⟨_, List.mem_eraseDups.mpr (List.mem_map_of_mem member), rfl⟩
  have all : ∀ group ∈ groups found, ∃ production, productionOf source group.2 = .ok production :=
    forall_of_forall₂ (mapM_eq_ok_iff.mp formed).flip fun entry _ group result =>
      (map_eq_ok_iff.mp result).imp fun _ => And.left
  obtain ⟨production, produced⟩ := all _ group
  obtain ⟨-, -, bodies⟩ := eq_of_productionOf produced
  rw [clausesBody_eq] at bodies
  obtain ⟨arms, translated, -⟩ := map_eq_ok_iff.mp bodies
  have each : ∀ other ∈ found.filter fun other => other.name = clause.name,
      ∃ body, bodyOf source other.body = .ok body :=
    forall_of_forall₂ (mapM_eq_ok_iff.mp translated).flip fun arm _ other result =>
      (map_eq_ok_iff.mp result).imp fun _ => And.left
  exact each clause (List.mem_filter.mpr ⟨member, by simp⟩)

/-- The clauses of a text can be read one by one. -/
theorem exists_writtenClauses {trees : List Tree} {found : List Clause}
    (translated : List.Forall₂ (fun tree clause => Clause.ofTree source tree = .ok clause) trees
      found)
    (bodies : ∀ clause ∈ found, ∃ body, bodyOf source clause.body = .ok body) :
    ∃ clauses, trees.mapM (WrittenClause.ofTree source) = .ok clauses ∧
      List.Forall₂ (WrittenClause.Forms source) clauses found := by
  induction translated with
  | nil => exact ⟨[], rfl, .nil⟩
  | @cons tree clause trees found first _ induction =>
      obtain ⟨⟨body, translated⟩, later⟩ := List.forall_mem_cons.mp bodies
      obtain ⟨written, reads, form⟩ := WrittenClause.exists_of_ofTree first translated
      obtain ⟨clauses, rest, forms⟩ := induction later
      exact ⟨written :: clauses, mapM_eq_ok_iff.mpr (.cons reads (mapM_eq_ok_iff.mp rest)),
        .cons form forms⟩

/-! ### Productions and calls -/

/-- Clauses grouped by different names are, in another order, the clauses of these names. -/
theorem perm_flatMap_filter (clauses : List WrittenClause) {names : List String}
    (distinct : names.Nodup) :
    (names.flatMap fun name => clauses.filter fun clause => clause.name = name).Perm
      (clauses.filter fun clause => clause.name ∈ names) := by
  induction names with
  | nil => simp
  | cons name names induction =>
      obtain ⟨fresh, distinct⟩ := List.nodup_cons.mp distinct
      have split := List.filter_append_perm (fun clause : WrittenClause => clause.name = name)
        (clauses.filter fun clause => clause.name ∈ name :: names)
      rw [List.filter_filter, List.filter_filter] at split
      rw [List.flatMap_cons]
      refine ((induction distinct).append_left _).trans (.trans (.of_eq ?_) split)
      congr 1
      · refine List.filter_congr fun clause _ => ?_
        by_cases here : clause.name = name <;> simp [here]
      · refine List.filter_congr fun clause _ => ?_
        by_cases here : clause.name = name <;> simp [here, fresh]

/-- The outcome of a call whose production dispatches it to a clause: that of the body, evaluated
right after the call is entered. No clause covers the call otherwise. -/
def dispatch (setting : Setting) (room : Nat) (call : Call) (place : Cursor) :
    Option WrittenClause → Outcome
  | some clause =>
      (clause.body.evaluate call.name (setting.invoke room) call.parameters place
        (Memory.fresh.log (.enter call))).1.enclose call
  | none => .failed (.uncoveredContext call.name call.parameters)

/-- Calls of a production on a fresh session, with values of the kinds of its formals, bind these to
the values by position. Whatever the cache, the limit and the text are, they are dispatched to the
first of some clauses that accepts the values. -/
def DispatchesTo (compiled : Grammar) (name : String) (formals : List Formal)
    (accepting? : List Value → Option WrittenClause) : Prop :=
  ∀ values, List.Forall₂ (fun formal value => formal.takes value = true) formals values →
    ∃ bound : Parameters, (∀ formal, bound.get? formal = (formals.zip values).lookup formal) ∧
      ∀ (cached : Bool) (room : Nat) (text : List Char) (offset : Nat) (place : Cursor)
        (caller : Parameters), Cursor.at? text offset = some place →
        let setting : Setting := ⟨compiled, cached, room + 1⟩
        ((Session.fresh setting text).ask
            ⟨offset, caller, .reference name (values.map .literal)⟩).1 =
          dispatch setting room ⟨name, bound, offset⟩ place (accepting? values)

/-- A grammar has the productions of some clauses, and dispatches calls to these as they stand in
their text. -/
structure Dispatches (compiled : Grammar) (clauses : List WrittenClause) : Prop where
  /-- The productions are in the order of their first clauses. -/
  names : compiled.names = (clauses.map WrittenClause.name).eraseDups
  /-- The bodies of all productions are those of all clauses, each used exactly once. -/
  bodies : (compiled.entries.flatMap fun entry =>
      (armsOf entry.2.body).map fun arm => (entry.1, arm.2)).Perm
    (clauses.map fun clause => (clause.name, clause.body))
  /-- All clauses of a production have its formals, at the same positions. -/
  formals (name : String) (production : Production) :
    compiled.get? name = some production →
      ∀ clause ∈ clauses, clause.name = name → clause.formals = production.formals
  /-- A call is dispatched to the first clause of the name that accepts the values. -/
  calls (name : String) (production : Production) :
    compiled.get? name = some production →
      DispatchesTo compiled name production.formals fun values =>
        clauses.find? fun clause => clause.name = name && clause.accepts values

/-- A production dispatches to the clauses that it is formed of. -/
theorem FormedOf.dispatchesTo {compiled : Grammar} {arms : List (Parameters × Node)} {name : String}
    {production : Production} (formed : FormedOf clauses arms production)
    (found : compiled.get? name = some production) :
    DispatchesTo compiled name production.formals fun values =>
      clauses.find? fun clause => clause.accepts values := by
  intro values takes
  obtain ⟨bound, gets, binds⟩ :=
    exists_bindArguments_literals outside name formed.distinct takes .empty
  simp only [Parameters.get?_empty, Option.or_none] at gets
  refine ⟨bound, gets, fun cached room text offset place caller located => ?_⟩
  obtain ⟨-, rfl⟩ := Cursor.at?_eq_some_iff.mp located
  have counts : (values.map Binding.literal).length = production.formals.length := by
    rw [List.length_map, takes.length_eq]
  let setting : Setting := ⟨compiled, cached, room + 1⟩
  have entered : setting.invoke (room + 1) outside name (values.map .literal) caller place .fresh =
      setting.conclude ⟨name, bound, place.offset⟩
        (production.body.evaluate name (setting.invoke room) bound place
          (Memory.fresh.log (.enter ⟨name, bound, place.offset⟩))) :=
    Setting.invoke_succ found counts (binds caller) (by simp [Memory.fresh])
  have chosen := find?_arms formed.distinct takes.length_eq.symm gets formed.formals formed.gives
  simp only [Session.ask, Session.parse, Setting.parse, Session.fresh, located]
  rw [Node.evaluate, entered, Setting.conclude_fst, formed.body,
    alike_cases_bodyOfArms arms name, Node.evaluate, Node.evaluateCases_eq]
  cases satisfied : arms.find? fun arm => bound.satisfies arm.1 with
  | none =>
      rw [satisfied, Option.map_none] at chosen
      rw [Option.map_eq_none_iff.mp chosen.symm]
      rfl
  | some arm =>
      rw [satisfied, Option.map_some] at chosen
      obtain ⟨clause, accepting, body⟩ := Option.map_eq_some_iff.mp chosen.symm
      rw [accepting, dispatch, body]

private theorem FormedOf.map_armsOf {arms : List (Parameters × Node)} {name : String}
    {production : Production} (formed : FormedOf clauses arms production)
    (named : ∀ clause ∈ clauses, clause.name = name)
    (bodies : ∀ clause ∈ clauses, Compiled clause.body) :
    ((armsOf production.body).map fun arm => (name, arm.2)) =
      clauses.map fun clause => (clause.name, clause.body) := by
  have compiled : ∀ arm ∈ arms, Compiled arm.2 :=
    forall_of_forall₂ formed.gives fun clause member arm gives =>
      gives.body ▸ bodies clause member
  rw [formed.body, armsOf_bodyOfArms compiled]
  refine (map_eq_of_forall₂ ((List.forall₂_and_left _ _).mpr ⟨named, formed.gives⟩)
    fun clause arm holds => ?_).symm
  rw [holds.1, holds.2.body]

/-- The bodies of productions that are formed of the clauses of their names are the bodies of all
clauses. -/
theorem bodies_perm {entries : List (String × Production)}
    (distinct : (entries.map Prod.fst).Nodup)
    (named : ∀ clause ∈ clauses, clause.name ∈ entries.map Prod.fst)
    (each : ∀ entry ∈ entries, ∃ arms,
      FormedOf (clauses.filter fun clause => clause.name = entry.1) arms entry.2)
    (bodies : ∀ clause ∈ clauses, Compiled clause.body) :
    (entries.flatMap fun entry =>
        (armsOf entry.2.body).map fun arm => (entry.1, arm.2)).Perm
      (clauses.map fun clause => (clause.name, clause.body)) := by
  have entry : ∀ entry ∈ entries,
      ((armsOf entry.2.body).map fun arm => (entry.1, arm.2)) =
        (clauses.filter fun clause => clause.name = entry.1).map
          fun clause => (clause.name, clause.body) := by
    intro entry member
    obtain ⟨arms, formed⟩ := each entry member
    exact formed.map_armsOf
      (fun clause among => of_decide_eq_true (List.mem_filter.mp among).2)
      fun clause among => bodies clause (List.mem_of_mem_filter among)
  have all : (clauses.filter fun clause => clause.name ∈ entries.map Prod.fst) = clauses :=
    List.filter_eq_self.mpr fun clause member => by simpa using named clause member
  have grouped := perm_flatMap_filter clauses distinct
  rw [List.flatMap_congr entry, ← List.map_flatMap]
  rw [List.flatMap_map] at grouped
  exact .map _ (grouped.trans (.of_eq all))

/-- Productions that clauses form dispatch to them. -/
theorem dispatches_of_productionsOf {found : List Clause} {compiled : Grammar}
    (formed : productionsOf source found = .ok compiled.entries)
    (forms : List.Forall₂ (WrittenClause.Forms source) clauses found)
    (bodies : ∀ clause ∈ clauses, Compiled clause.body) : Dispatches compiled clauses := by
  have names : clauses.map WrittenClause.name = found.map Clause.name :=
    map_eq_of_forall₂ forms fun _ _ form => form.name.symm
  have ordered : compiled.names = (clauses.map WrittenClause.name).eraseDups := by
    rw [Grammar.names, map_fst_of_productionsOf formed, names]
  have each := exists_formedOf_entry formed forms
  have formedOf {name : String} {production : Production}
      (get : compiled.get? name = some production) :=
    each (name, production) (Grammar.mem_entries_of_get? get)
  refine ⟨ordered, bodies_perm compiled.nodup (fun clause member => ?_) each bodies,
    fun name production get clause member named => ?_, fun name production get => ?_⟩
  · change clause.name ∈ compiled.names
    rw [ordered, List.mem_eraseDups]
    exact List.mem_map_of_mem member
  · obtain ⟨arms, formed⟩ := formedOf get
    exact formed.formals clause (List.mem_filter.mpr ⟨member, by simpa using named⟩)
  · obtain ⟨arms, formed⟩ := formedOf get
    simpa only [List.find?_filter, Bool.decide_and, Bool.decide_eq_true] using
      formed.dispatchesTo get

/-! ### Texts -/

private theorem compiled_of_forms {trees : List Tree} {found : List Clause}
    (parsed : ∀ tree ∈ trees, Parsed source tree ∧ tree.name = "production")
    (translated : trees.mapM (Clause.ofTree source) = .ok found)
    (forms : List.Forall₂ (WrittenClause.Forms source) clauses found) :
    ∀ clause ∈ clauses, Compiled clause.body := by
  have fit : ∀ clause ∈ found, ClauseFits source clause :=
    forall_of_forall₂ (mapM_eq_ok_iff.mp translated) fun tree member clause result => by
      have delivers := delivers_clause (parsed tree member).1 (parsed tree member).2
      rwa [result] at delivers
  refine forall_of_forall₂ forms.flip fun clause member written form => ?_
  have compiled := (fit clause member).body
  rwa [form.body] at compiled

/-- Grouping clauses loses none of them and keeps their order. A text that is compiled has clauses
that can be read one by one. Its productions are in the order of their first clauses and use the
body of each clause exactly once. A call with literal values of the right number and kinds has the
outcome of the first clause in the text that has the name and accepts the values, and fails as
uncovered if there is none. -/
theorem compile_dispatches {text : String} {compiled : Grammar}
    (compiles : compile text = .ok compiled) :
    ∃ root clauses, ((setting grammar).parseAll "grammar" text.toList).1 = .ok root ∧
      (root.children "production").mapM (WrittenClause.ofTree text.toList) = .ok clauses ∧
      Dispatches compiled clauses := by
  obtain ⟨root, parsed, denotes⟩ := exists_tree_of_compile compiles
  obtain ⟨found, translated, formed⟩ := grammarOf_eq_ok_iff.mp denotes
  obtain ⟨clauses, reads, forms⟩ := exists_writtenClauses (mapM_eq_ok_iff.mp translated)
    (exists_body_of_productionsOf formed)
  have whole : Parsed text.toList root :=
    parsed_of_parseAll rfl parsed (0, root) (by cases root; exact List.mem_cons_self)
  have bodies := compiled_of_forms (fun tree member => whole.of_children member) translated forms
  exact ⟨root, clauses, parsed, reads, dispatches_of_productionsOf formed forms bodies⟩

/-- Clauses of a production with another one between them. -/
def tagText : String := "tag(block-in,n) ::= 'a'\nend ::= 'z'\ntag(c,0) ::= 'b' end\n"

/-- The grammar of this text. -/
def tagGrammar : Grammar :=
  .ofList
    [ ("tag",
        ⟨none, [.c, .n],
          .cases
            [ ({ c := some .blockIn }, .literal "a"),
              ({ n := some 0 }, .sequence [.literal "b", .call "end"]) ]⟩),
      ("end", ⟨none, [], .literal "z"⟩) ]

theorem compile_dispatches_tag :
    compile tagText = .ok tagGrammar ∧
      ∃ root clauses, ((setting grammar).parseAll "grammar" tagText.toList).1 = .ok root ∧
        (root.children "production").mapM (WrittenClause.ofTree tagText.toList) = .ok clauses ∧
        Dispatches tagGrammar clauses := by
  have compiles : compile tagText = .ok tagGrammar := compile_of_uncached (by decide +kernel)
  exact ⟨compiles, compile_dispatches compiles⟩

end Bnf

end ParametricGrammar
