import Mathlib.Data.List.Nodup
import ParametricGrammar.Proofs.Dialect.PrintedArguments
import ParametricGrammar.Proofs.Subtrees
/-!
# Parameters that are read back

A written argument is translated to the binding that it was written for, unless that is one that is
not read back, and a written head to its formals and literals. Calls with arguments and heads with
formals are put together from such parameters.
-/

namespace ParametricGrammar

namespace Bnf

variable {source : List Char} {tree : Tree} {head next : Head}

/-! ### Parameters of heads -/

/-- A parameter adds its formal to a head, and its literal to the pattern if it is one. -/
theorem Head.exists_of_add (adds : head.add source tree = .ok next) :
    ∃ formal literal, Head.declared source tree = .ok (formal, literal) ∧
      formal ∉ head.formals ∧ next.formals = head.formals ++ [formal] ∧
      ∀ other, next.pattern.get? other =
        (if other = formal then literal else none).or (head.pattern.get? other) := by
  obtain ⟨⟨formal, literal⟩, declared, adds⟩ := bind_eq_ok_iff.mp adds
  refine ⟨formal, literal, declared, ?_⟩
  dsimp only at adds
  split at adds
  · cases adds
  · rename_i fresh
    cases literal with
    | none =>
        cases adds
        exact ⟨fresh, rfl, fun other => by simp⟩
    | some value =>
        dsimp only at adds
        cases bound : head.pattern.bind formal value with
        | error error =>
            rw [bound] at adds
            cases adds
        | ok pattern =>
            rw [bound] at adds
            cases adds
            refine ⟨fresh, rfl, fun other => ?_⟩
            rw [Parameters.get?_bind bound]
            split <;> simp

/-- A head has the formals of its parameters in their order, and each literal at its formal. -/
theorem Head.exists_of_foldlM_add {trees : List Tree} {head next : Head}
    (distinct : head.formals.Nodup) (adds : trees.foldlM (Head.add source) head = .ok next) :
    ∃ declared, trees.mapM (Head.declared source) = .ok declared ∧
      next.formals = head.formals ++ declared.map Prod.fst ∧ next.formals.Nodup ∧
      ∀ formal, next.pattern.get? formal =
        (declared.lookup formal).join.or (head.pattern.get? formal) := by
  induction trees generalizing head with
  | nil =>
      cases adds
      exact ⟨[], rfl, by simp, distinct, fun _ => rfl⟩
  | cons tree trees induction =>
      rw [List.foldlM_cons] at adds
      obtain ⟨middle, step, adds⟩ := bind_eq_ok_iff.mp adds
      obtain ⟨formal, literal, first, fresh, extended, values⟩ := Head.exists_of_add step
      have distinctMiddle : middle.formals.Nodup := by
        rw [extended, ← List.concat_eq_append]
        exact distinct.concat fresh
      obtain ⟨declared, rest, formals, distinctNext, patterns⟩ := induction distinctMiddle adds
      refine ⟨(formal, literal) :: declared, ?_, ?_, distinctNext, fun other => ?_⟩
      · exact mapM_eq_ok_iff.mpr (.cons first (mapM_eq_ok_iff.mp rest))
      · rw [formals, extended, List.append_assoc]
        rfl
      · rw [patterns, values, List.lookup_cons]
        by_cases same : other = formal
        · subst same
          -- The formal is not declared again, so no later literal takes its place.
          have later : other ∉ declared.map Prod.fst := fun again => by
            rw [formals, extended] at distinctNext
            exact (List.nodup_append.mp distinctNext).2.2 other (by simp) other again rfl
          simp [lookup_eq_none_of_notMem later]
        · simp [beq_false_of_ne same, same]

/-- A declaration of another formal is added to a head, if its literal is of the kind of the
formal. -/
theorem Head.exists_add {formal : Formal} {literal : Option Value}
    (declared : Head.declared source tree = .ok (formal, literal))
    (kind : ∀ value ∈ literal, value.formal = formal) (fresh : formal ∉ head.formals) :
    ∃ next, head.add source tree = .ok next ∧ next.formals = head.formals ++ [formal] := by
  simp only [Head.add, declared, bind, Except.bind, if_neg fresh]
  cases literal with
  | none => exact ⟨_, rfl, rfl⟩
  | some value =>
      obtain rfl := kind value rfl
      cases value <;> exact ⟨_, rfl, rfl⟩

/-- Declarations of distinct formals make up a head, if their literals are of the kinds of the
formals. -/
theorem Head.exists_foldlM_add {trees : List Tree} {declared : List (Formal × Option Value)}
    (reads : List.Forall₂ (fun tree declared => Head.declared source tree = .ok declared) trees
      declared)
    (kinds : ∀ parameter ∈ declared, ∀ value ∈ parameter.2, value.formal = parameter.1)
    (distinct : (head.formals ++ declared.map Prod.fst).Nodup) :
    ∃ next, trees.foldlM (Head.add source) head = .ok next := by
  induction reads generalizing head with
  | nil => exact ⟨head, rfl⟩
  | @cons tree parameter trees declared first _ induction =>
      rw [List.forall_mem_cons] at kinds
      have fresh : parameter.1 ∉ head.formals := fun member =>
        (List.nodup_append.mp distinct).2.2 _ member _ List.mem_cons_self rfl
      obtain ⟨middle, step, extended⟩ := Head.exists_add first kinds.1 fresh
      have later : (middle.formals ++ declared.map Prod.fst).Nodup := by
        rwa [extended, List.append_assoc]
      obtain ⟨next, rest⟩ := induction kinds.2 later
      exact ⟨next, by rw [List.foldlM_cons, step]; exact rest⟩

namespace Dialect

/-! ### Arguments -/

/-- The text of an argument with the binding that its tree is translated to. -/
structure Argument where
  chars : List Char
  binding : Binding
  reads : ReadsParameter ⟨chars, fun source tree => argumentOf source tree = .ok binding⟩

/-- The text of an argument with what its tree stands for. -/
def Argument.item (argument : Argument) : Item :=
  ⟨argument.chars, fun source tree => argumentOf source tree = .ok argument.binding⟩

/-- The argument that a parameter computes. -/
def Parameter.argument (parameter : Parameter) (binding : Binding)
    (computes : parameter.binding? = some binding) : Argument where
  chars := parameter.chars
  binding := binding
  reads := parameter.reads fun _ _ stands =>
    toOption_eq_some_iff.mp (stands.toOption_argumentOf.trans computes)

/-- A call of a production with arguments. -/
def Atom.call (name : List Char) (valid : isName name = true) (other : isHexLike name = false)
    (first : Argument) (more : List Argument) : Phrase "atom" EndsAtom where
  chars := name ++ (listItem first.item (more.map Argument.item)).chars
  meaning := .ofNode (.reference (String.ofList name) ((first :: more).map Argument.binding))
  nesting := 1
  reads := by
    have each : ∀ item ∈ (first :: more).map Argument.item, ReadsParameter item :=
      List.forall_mem_map.mpr fun argument _ => argument.reads
    refine (Reads.reference valid other (readsList_listItem each)).imp
      fun source _ kind ⟨tree, only, named, ⟨_, label, written⟩, listed⟩ => ?_
    obtain ⟨list, found, stood⟩ := exists_of_rel listed
    have all : Stood "parameter" ((first :: more).map Argument.item) source list.content := stood
    have each := List.forall₂_map_right_iff.mp all
    have computes : (list.children "parameter").mapM (argumentOf source) =
        .ok ((first :: more).map Argument.binding) :=
      mapM_eq_ok_iff.mpr (List.forall₂_map_right_iff.mpr each)
    exact .atom kind only (.call named label found written computes)

/-- The text that an argument is printed as. Its tree is translated to the argument, or to nothing
if the argument is not read back. -/
def argumentItem (binding : Binding) : Item where
  chars := binding.parameter.chars
  stands source tree := (argumentOf source tree).toOption =
    if binding.isReadable then some binding else none

theorem reads_argumentItem {binding : Binding} (valid : binding.isArgument = true) :
    ReadsParameter (argumentItem binding) :=
  binding.parameter.reads fun _ _ stands =>
    stands.toOption_argumentOf.trans (binding?_parameter valid)

theorem chars_argumentItems (arguments : List Binding) :
    (arguments.map argumentItem).map Item.chars =
      (arguments.map Binding.text).map String.toList := by
  simp [Function.comp_def, argumentItem, Binding.chars_parameter]

/-! ### Heads -/

/-- The text that a formal is printed as in a head, with the value of a pattern if it has one, and
what its tree declares. -/
def headItem (formal : Formal) (value : Option Value) : Item where
  chars := (headParameter formal value).chars
  stands source tree := Head.declared source tree = .ok (formal, value)

private theorem reads_headItem {formal : Formal} {value : Option Value}
    (kind : ∀ bound ∈ value, bound.formal = formal) : ReadsParameter (headItem formal value) :=
  (headParameter formal value).reads fun _ _ stands =>
    toOption_eq_some_iff.mp (stands.toOption_declared.trans (declared?_headParameter kind))

/-- The parameters that a head is printed with. -/
def headItems (formals : List Formal) (pattern : Parameters) : List Item :=
  formals.map fun formal => headItem formal (pattern.get? formal)

variable {formals : List Formal} {pattern : Parameters}

theorem readsList_headItems (fits : pattern.Fits formals) :
    ReadsList (parameterList (headItems formals pattern)) :=
  readsList_parameterList <| List.forall_mem_map.mpr fun _ _ =>
    reads_headItem fun _ binds => (fits _ _ binds).2

theorem chars_headItems (formals : List Formal) (pattern : Parameters) :
    (headItems formals pattern).map Item.chars =
      (caseHead formals pattern).map String.toList := by
  simp [headItems, headItem, caseHead, Function.comp_def, chars_headParameter]

/-- The parameters that a head is printed with are translated to that head. -/
theorem foldlM_add {list : Option Tree} (distinct : formals.Nodup) (fits : pattern.Fits formals)
    (stands : Option.Rel (fun item tree => item.stands source tree)
      (parameterList (headItems formals pattern)) list) :
    (parametersOf list).foldlM (Head.add source) {} = .ok ⟨formals, pattern⟩ := by
  have stood := stands_parameters stands
  rw [headItems, List.forall₂_map_right_iff] at stood
  let parameters := formals.map fun formal => (formal, pattern.get? formal)
  have all : List.Forall₂ (fun tree declared => Head.declared source tree = .ok declared)
      (parametersOf list) parameters := List.forall₂_map_right_iff.mpr stood
  have kinds : ∀ parameter ∈ parameters, ∀ value ∈ parameter.2, value.formal = parameter.1 :=
    List.forall_mem_map.mpr fun formal _ value binds => (fits formal value binds).2
  have names : parameters.map Prod.fst = formals := by simp [parameters, Function.comp_def]
  have fresh : (({} : Head).formals ++ parameters.map Prod.fst).Nodup := by simpa [names]
  obtain ⟨head, adds⟩ := Head.exists_foldlM_add all kinds fresh
  obtain ⟨declared, reads, named, -, values⟩ := Head.exists_of_foldlM_add List.nodup_nil adds
  obtain rfl : parameters = declared :=
    Except.ok.inj ((mapM_eq_ok_iff.mpr all).symm.trans reads)
  have same : head.pattern = pattern := by
    refine Parameters.eq_of_get?_eq fun formal => ?_
    have empty : ({} : Head).pattern.get? formal = none := Parameters.get?_empty formal
    rw [values, empty, Option.or_none]
    by_cases member : formal ∈ formals
    · rw [List.lookup_graph _ member]
      rfl
    · rw [lookup_eq_none_of_notMem (by simpa [names] using member)]
      by_contra bound
      obtain ⟨value, binds⟩ := Option.ne_none_iff_exists'.mp (Ne.symm bound)
      exact member (fits formal value binds).1
  obtain ⟨_, _⟩ := head
  obtain rfl := same
  rw [adds]
  simpa [names] using named

end Dialect

/-! ### Clauses -/

open Dialect

/-- The number of a label that may be missing. -/
def Clause.numberOf (source : List Char) : Option Tree → Except CompileError (Option UInt32)
  | some label => (sectionNumber source label).map some
  | none => .ok none

theorem Clause.ofTree_eq (source : List Char) (tree : Tree) : Clause.ofTree source tree = (do
    let name ← tree.required "production-name"
    let number ← Clause.numberOf source (tree.child? "section-number")
    let head ← (parametersOf (tree.child? "parameter-list")).foldlM (Head.add source) {}
    let body ← tree.required "alternation"
    return {
      name := name.text source
      formals := head.formals
      pattern := head.pattern
      number := number
      body := body
      span := ⟨((tree.child? "section-number").getD name).start, tree.stop⟩ }) := by
  unfold Clause.ofTree
  cases tree.child? "section-number" <;> cases tree.child? "parameter-list" <;> rfl

end Bnf

end ParametricGrammar
