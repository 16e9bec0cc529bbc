import ParametricGrammar.Proofs.Dialect.PrintedClauses
import ParametricGrammar.Proofs.Dialect.Traces
import ParametricGrammar.Proofs.Dialect.Translation
/-!
# Trees at other places

What a tree is translated to depends on its parts and on the characters that they cover, not on
where they lie in the text nor on what else is there. Only the places of errors do.
-/

namespace ParametricGrammar

/-- Two results are both there and related, or neither is. -/
inductive Agree {α β : Type} (relates : α → β → Prop) :
    Except CompileError α → Except CompileError β → Prop where
  | ok {value : α} {other : β} (related : relates value other) :
      Agree relates (.ok value) (.ok other)
  | error {error other : CompileError} : Agree relates (.error error) (.error other)

namespace Agree

variable {α β γ δ : Type} {relates : α → β → Prop} {goal : γ → δ → Prop}
  {left : Except CompileError α} {right : Except CompileError β}

theorem imp {others : α → β → Prop} (agree : Agree relates left right)
    (implies : ∀ value other, relates value other → others value other) :
    Agree others left right := by
  cases agree with
  | ok related => exact .ok (implies _ _ related)
  | error => exact .error

theorem bind {next : α → Except CompileError γ} {next' : β → Except CompileError δ}
    (agree : Agree relates left right)
    (continues : ∀ value other, relates value other → Agree goal (next value) (next' other)) :
    Agree goal (left >>= next) (right >>= next') := by
  cases agree with
  | ok related => exact continues _ _ related
  | error => exact .error

theorem map {convert : α → γ} {convert' : β → δ} (agree : Agree relates left right)
    (continues : ∀ value other, relates value other → goal (convert value) (convert' other)) :
    Agree goal (left.map convert) (right.map convert') := by
  cases agree with
  | ok related => exact .ok (continues _ _ related)
  | error => exact .error

theorem mapM {items : List α} {others : List β} {convert : α → Except CompileError γ}
    {convert' : β → Except CompileError δ} (all : List.Forall₂ relates items others)
    (each : ∀ item other, relates item other → Agree goal (convert item) (convert' other)) :
    Agree (List.Forall₂ goal) (items.mapM convert) (others.mapM convert') := by
  induction all with
  | nil => exact .ok .nil
  | cons head _ induction =>
      rw [List.mapM_cons, List.mapM_cons]
      exact (each _ _ head).bind fun _ _ first => induction.bind fun _ _ rest =>
        .ok (.cons first rest)

private theorem foldlM {items : List α} {others : List β} {step : γ → α → Except CompileError γ}
    {step' : γ → β → Except CompileError γ} {start : γ} (all : List.Forall₂ relates items others)
    (each : ∀ before item other, relates item other →
      Agree Eq (step before item) (step' before other)) :
    Agree Eq (items.foldlM step start) (others.foldlM step' start) := by
  induction all generalizing start with
  | nil => exact .ok rfl
  | cons head _ induction =>
      rw [List.foldlM_cons, List.foldlM_cons]
      refine (each start _ _ head).bind fun _ _ same => ?_
      subst same
      exact induction

private theorem toOption_eq {right : Except CompileError α} (agree : Agree Eq left right) :
    left.toOption = right.toOption := by
  cases agree with
  | ok same => rw [same]
  | error => rfl

theorem of_ok {value : α} (agree : Agree relates (.ok value) right) :
    ∃ other, right = .ok other ∧ relates value other := by
  cases agree with
  | ok related => exact ⟨_, rfl, related⟩

end Agree

private theorem rel_head? {α β : Type} {relates : α → β → Prop} {items : List α} {others : List β}
    (all : List.Forall₂ relates items others) : Option.Rel relates items.head? others.head? := by
  cases all with
  | nil => exact .none
  | cons head _ => exact .some head

namespace Bnf

open Dialect

variable {source source' : List Char} {tree tree' : Tree} {name : String}

/-- Two trees, each in its source, have the same parts over the same characters. -/
def Displaced (source source' : List Char) (tree tree' : Tree) : Prop :=
  Part.ofTree source tree = Part.ofTree source' tree'

theorem Part.ofTree_eq (source : List Char) (tree : Tree) : Part.ofTree source tree =
    ⟨tree.name, (slice? source tree.start tree.stop).getD [],
      tree.content.map (Part.ofTree source)⟩ := by
  cases tree
  rw [Part.ofTree, Part.ofTrees_eq_map]

theorem name_ofTree (source : List Char) (tree : Tree) :
    (Part.ofTree source tree).name = tree.name := by
  rw [Part.ofTree_eq]

/-- Trees with the same parts are displaced one by one. -/
theorem forall₂_displaced {trees trees' : List Tree}
    (same : trees.map (Part.ofTree source) = trees'.map (Part.ofTree source')) :
    List.Forall₂ (Displaced source source') trees trees' := by
  rwa [← List.forall₂_eq_eq_eq, List.forall₂_map_left_iff, List.forall₂_map_right_iff] at same

/-- What has to be found is found in both trees, or in neither. -/
theorem agree_required {relates : Tree → Tree → Prop}
    (found : Option.Rel relates (tree.child? name) (tree'.child? name)) :
    Agree relates (tree.required name) (tree'.required name) := by
  rw [Tree.required, Tree.required]
  generalize tree.child? name = left, tree'.child? name = right at found
  cases found with
  | some same => exact .ok same
  | none => exact .error

namespace Displaced

variable (displaced : Displaced source source' tree tree')

include displaced

private theorem name_eq : tree.name = tree'.name := by
  have same := congrArg Part.name displaced
  rwa [name_ofTree, name_ofTree] at same

private theorem text_eq : tree.text source = tree'.text source' := by
  have same := congrArg Part.chars displaced
  rw [Part.ofTree_eq, Part.ofTree_eq] at same
  exact congrArg String.ofList same

private theorem content : List.Forall₂ (Displaced source source') tree.content tree'.content := by
  have same := congrArg Part.content displaced
  rw [Part.ofTree_eq, Part.ofTree_eq] at same
  exact forall₂_displaced same

private theorem children (name : String) :
    List.Forall₂ (Displaced source source') (tree.children name) (tree'.children name) := by
  refine List.rel_filter (fun part part' displaced => ?_) displaced.content
  change decide (part.name = name) = true ↔ decide (part'.name = name) = true
  rw [name_eq displaced]

private theorem child? (name : String) :
    Option.Rel (Displaced source source') (tree.child? name) (tree'.child? name) := by
  rw [Tree.child?, Tree.child?, ← List.head?_filter, ← List.head?_filter]
  exact rel_head? (displaced.children name)

private theorem required (name : String) :
    Agree (Displaced source source') (tree.required name) (tree'.required name) :=
  agree_required (displaced.child? name)

end Displaced

/-! ### Parameters -/

private theorem agree_decimalValue (displaced : Displaced source source' tree tree') :
    Agree Eq (decimalValue source tree) (decimalValue source' tree') := by
  unfold decimalValue
  dsimp only
  rw [displaced.text_eq]
  split
  · exact .ok rfl
  · exact .error

private theorem agree_addTerm {whole whole' : Tree} (sum : Sum) (sign : ℤ)
    (displaced : Displaced source source' tree tree') :
    Agree Eq (addTerm source whole sum sign tree) (addTerm source' whole' sum sign tree') := by
  have named := displaced.child? "param-variable"
  unfold addTerm
  generalize tree.child? "param-variable" = left, tree'.child? "param-variable" = right at named
  cases named with
  | some same =>
      dsimp only
      rw [same.text_eq]
      split
      · exact .ok rfl
      · exact .error
  | none =>
      refine (displaced.required "decimal").bind fun _ _ same =>
        (agree_decimalValue same).bind fun value _ same => ?_
      subst same
      split
      · exact .ok rfl
      · exact .error

private theorem agree_gather {whole whole' : Tree} {trees trees' : List Tree} (sum : Sum) (sign : ℤ)
    (all : List.Forall₂ (Displaced source source') trees trees') :
    Agree Eq (gather source whole sum sign trees) (gather source' whole' sum sign trees') := by
  induction all generalizing sum sign with
  | nil => exact .ok rfl
  | cons head _ induction =>
      rw [gather, gather, head.name_eq, head.text_eq]
      split
      · exact induction _ _
      · split
        · have term : Agree Eq (addTerm source whole sum sign _)
              (addTerm source' whole' sum sign _) := agree_addTerm sum sign head
          generalize addTerm source whole sum sign _ = left,
            addTerm source' whole' sum sign _ = right at term
          cases term with
          | ok same =>
              subst same
              exact induction _ _
          | error => exact .error
        · exact induction _ _

private theorem agree_sumOf (displaced : Displaced source source' tree tree') :
    Agree Eq (sumOf source tree) (sumOf source' tree') :=
  agree_gather _ _ displaced.content

private theorem agree_literalOf (displaced : Displaced source source' tree tree') :
    Agree Eq (literalOf source tree) (literalOf source' tree') := by
  have context := displaced.child? "context-value"
  have chomping := displaced.child? "chomping-value"
  unfold literalOf
  generalize tree.child? "context-value" = left, tree'.child? "context-value" = right at context
  generalize tree.child? "chomping-value" = left', tree'.child? "chomping-value" = right'
    at chomping
  cases context with
  | some same =>
      dsimp only
      rw [same.text_eq]
      split
      · exact .ok rfl
      · exact .error
  | none =>
      cases chomping with
      | some same =>
          dsimp only
          rw [same.text_eq]
          split
          · exact .ok rfl
          · exact .error
      | none => exact .ok rfl

private theorem agree_argumentOf (displaced : Displaced source source' tree tree') :
    Agree Eq (argumentOf source tree) (argumentOf source' tree') := by
  refine (agree_literalOf displaced).bind fun literal _ same => ?_
  subst same
  cases literal with
  | some value => exact .ok rfl
  | none =>
      have inFlow := displaced.child? "in-flow"
      dsimp only
      generalize tree.child? "in-flow" = left, tree'.child? "in-flow" = right at inFlow
      cases inFlow with
      | some same =>
          refine (same.required "param-variable").bind fun _ _ same => ?_
          rw [same.text_eq]
          split
          · exact .ok rfl
          · exact .error
      | none =>
          refine (displaced.required "param-sum").bind fun _ _ same =>
            (agree_sumOf same).bind fun sum _ same => ?_
          subst same
          split
          · exact .ok rfl
          · exact .error

private theorem agree_boundOf (displaced : Displaced source source' tree tree') :
    Agree Eq (boundOf source tree) (boundOf source' tree') := by
  refine (agree_sumOf displaced).bind fun sum _ same => ?_
  subst same
  split
  · split
    · exact .ok rfl
    · exact .error
  · split
    · exact .ok rfl
    · exact .error

/-! ### Characters -/

private theorem agree_hexOf (displaced : Displaced source source' tree tree') :
    Agree Eq (hexOf source tree) (hexOf source' tree') := by
  unfold hexOf
  dsimp only
  rw [displaced.text_eq]
  split
  · split
    · exact .ok rfl
    · exact .error
  · exact .error

private theorem agree_rangeBoundOf (displaced : Displaced source source' tree tree') :
    Agree Eq (rangeBoundOf source tree) (rangeBoundOf source' tree') := by
  have hex := displaced.child? "hex-char"
  unfold rangeBoundOf
  generalize tree.child? "hex-char" = left, tree'.child? "hex-char" = right at hex
  cases hex with
  | some same => exact agree_hexOf same
  | none =>
      refine (displaced.required "quoted-char").bind fun _ _ same => ?_
      rw [same.text_eq]
      split
      · exact .ok rfl
      · exact .error

private theorem agree_rangeOf (displaced : Displaced source source' tree tree') :
    Agree Eq (rangeOf source tree) (rangeOf source' tree') := by
  have bounds := displaced.children "range-bound"
  unfold rangeOf
  generalize tree.children "range-bound" = left, tree'.children "range-bound" = right at bounds
  rcases bounds with _ | ⟨first, _ | ⟨last, _⟩⟩
  · exact .error
  · exact .error
  · refine (agree_rangeBoundOf first).bind fun _ _ same => (agree_rangeBoundOf last).bind
      fun _ _ same' => ?_
    subst same same'
    exact .ok rfl

/-! ### Bodies -/

section Parts

variable {α : Type} {find find' : Tree → α}

/-- What is computed for parts that are displaced one by one. -/
theorem map_eq_of_displaced {trees trees' : List Tree}
    (all : List.Forall₂ (Displaced source source') trees trees')
    (each : ∀ part ∈ trees, ∀ part', Displaced source source' part part' →
      find part = find' part') : trees.map find = trees'.map find' := by
  have both := (List.forall₂_and_left _ _).mpr ⟨fun part member => member, all⟩
  exact map_eq_of_forall₂ both fun part part' ⟨member, same⟩ => each part member part' same

end Parts

private theorem isSome_child?_eq (displaced : Displaced source source' tree tree') (name : String) :
    (tree.child? name).isSome = (tree'.child? name).isSome := by
  have found := displaced.child? name
  generalize tree.child? name = left, tree'.child? name = right at found
  cases found <;> rfl

/-- What is computed of the parts of a tree is the same for those of a displaced one. -/
structure SameParts {α : Type} (tree tree' : Tree) (find find' : Tree → α) : Prop where
  children : ∀ name, (tree.children name).map find = (tree'.children name).map find'
  child? : ∀ name, (tree.child? name).map find = (tree'.child? name).map find'
  head? : tree.content.head?.map find = tree'.content.head?.map find'

private theorem sameParts {α : Type} {find find' : Tree → α}
    (displaced : Displaced source source' tree tree')
    (each : ∀ part ∈ tree.content, ∀ part', Displaced source source' part part' →
      find part = find' part') : SameParts tree tree' find find' := by
  have children : ∀ name, (tree.children name).map find = (tree'.children name).map find' :=
    fun name => map_eq_of_displaced (displaced.children name)
      fun part member => each part (List.mem_of_mem_filter member)
  refine ⟨children, fun name => ?_, ?_⟩
  · have same := congrArg List.head? (children name)
    simpa [Tree.children, Tree.child?] using same
  · have same := congrArg List.head? (map_eq_of_displaced displaced.content each)
    simpa using same

private theorem fold?_displaced (displaced : Displaced source source' tree tree') :
    fold? source tree = fold? source' tree' := by
  induction tree using Tree.induction generalizing tree' with
  | step tree induction =>
  obtain ⟨children, child, head⟩ :=
    sameParts displaced fun part member _ same => induction part member same
  simp only [Tree.children, Tree.child?] at children child
  rw [fold?_eq, fold?_eq, foldParts.eq_def, foldParts.eq_def]
  simp only [partsOf_map, part?_map, displaced.name_eq, displaced.text_eq, children, child, head,
    isSome_child?_eq displaced, (agree_rangeOf displaced).toOption_eq,
    (agree_hexOf displaced).toOption_eq, List.head?_map, Option.map_map, Function.comp_def]

private theorem isSingle_displaced (displaced : Displaced source source' tree tree') :
    isSingle source tree = isSingle source' tree' := by
  induction tree using Tree.induction generalizing tree' with
  | step tree induction =>
  obtain ⟨children, child, head⟩ :=
    sameParts displaced fun part member _ same => induction part member same
  simp only [Tree.children, Tree.child?] at children child
  rw [isSingle_eq, isSingle_eq, singleParts.eq_def, singleParts.eq_def]
  simp only [partsOf_map, part?_map, displaced.name_eq, children, child, head,
    ← Option.not_isSome, isSome_child?_eq displaced, fold?_displaced displaced, List.head?_map,
    Option.map_map, Function.comp_def]

/-- Expressions that are computed for parts agree one by one. -/
abbrev AgreeAll : List (Except CompileError Node) → List (Except CompileError Node) → Prop :=
  List.Forall₂ (Agree Eq)

private theorem agree_all {operands operands' : List (Except CompileError Node)}
    (all : AgreeAll operands operands') : Agree Eq (operands.mapM id) (operands'.mapM id) := by
  refine (Agree.mapM all fun _ _ agree => agree).imp fun nodes nodes' same => ?_
  rwa [List.forall₂_eq_eq_eq] at same

private theorem agree_guarded {first first' : Except CompileError Node}
    {excluded excluded' : List (Except CompileError Node)} (agree : Agree Eq first first')
    (all : AgreeAll excluded excluded') :
    Agree Eq (guarded first excluded) (guarded first' excluded') := by
  have guards : Agree (List.Forall₂ Eq) (excluded.mapM fun operand => operand.map Node.notAhead)
      (excluded'.mapM fun operand => operand.map Node.notAhead) :=
    Agree.mapM all fun _ _ agree => agree.map fun _ _ same => congrArg Node.notAhead same
  refine guards.bind fun _ _ same => agree.bind fun _ _ same' => ?_
  rw [List.forall₂_eq_eq_eq] at same
  subst same same'
  exact .ok rfl

private theorem agree_differenceOf {operands operands' : List (Except CompileError Node)}
    (displaced : Displaced source source' tree tree') (all : AgreeAll operands operands') :
    Agree Eq (differenceOf source tree operands) (differenceOf source' tree' operands') := by
  rcases all with _ | ⟨first, _ | ⟨second, rest⟩⟩
  · exact .error
  · exact first
  · simp only [differenceOf, fold?_displaced displaced]
    split
    · exact .ok rfl
    · exact agree_guarded first (.cons second rest)

private theorem agree_getD {found found' : Option (Except CompileError Node)}
    {error error' : CompileError} (agree : Option.Rel (Agree Eq) found found') :
    Agree Eq (found.getD (.error error)) (found'.getD (.error error')) := by
  cases agree with
  | some agree => exact agree
  | none => exact .error

private theorem agree_quantifiedOf {atom atom' : Option (Except CompileError Node)}
    (displaced : Displaced source source' tree tree') (agree : Option.Rel (Agree Eq) atom atom') :
    Agree Eq (quantifiedOf source tree atom) (quantifiedOf source' tree' atom') := by
  refine (agree_getD agree).bind fun node _ same => ?_
  subst same
  have found := displaced.child? "quantifier"
  generalize tree.child? "quantifier" = left, tree'.child? "quantifier" = right at found
  cases found with
  | none => exact .ok rfl
  | some same =>
      dsimp only
      rw [same.text_eq]
      split
      · exact .ok rfl
      · exact .ok rfl
      · exact .ok rfl
      · refine (same.required "param-sum").bind fun _ _ same =>
          (agree_boundOf same).bind fun count _ same => ?_
        subst same
        exact .ok rfl

private theorem agree_lookaroundOf {operand operand' : Option (Except CompileError Node)}
    (displaced : Displaced source source' tree tree')
    (agree : Option.Rel (Agree Eq) operand operand') :
    Agree Eq (lookaroundOf source tree operand) (lookaroundOf source' tree' operand') := by
  refine (displaced.required "alternation").bind fun body body' same => ?_
  simp only [isSome_child?_eq displaced, ← Option.not_isSome, isSingle_displaced same,
    fold?_displaced same]
  split
  · split
    · split
      · exact .ok rfl
      · exact (agree_getD agree).bind fun _ _ same => .ok (congrArg Node.lookbehind same)
    · exact .error
  · refine (agree_getD agree).bind fun _ _ same => ?_
    subst same
    exact .ok rfl

private theorem agree_specialOf (displaced : Displaced source source' tree tree') :
    Agree Eq (specialOf source tree) (specialOf source' tree') := by
  unfold specialOf
  rw [displaced.text_eq]
  dsimp only
  split
  · exact .ok rfl
  · exact .ok rfl
  · exact .ok rfl
  · exact .error

private theorem agree_referenceOf (displaced : Displaced source source' tree tree') :
    Agree Eq (referenceOf source tree) (referenceOf source' tree') := by
  refine (displaced.required "production-name").bind fun label label' same => ?_
  have list := displaced.child? "parameter-list"
  generalize tree.child? "parameter-list" = left, tree'.child? "parameter-list" = right at list
  refine Agree.bind (?_ : Agree (List.Forall₂ Eq) _ _) fun _ _ all => ?_
  · cases list with
    | some same =>
        exact Agree.mapM (same.children "parameter") fun _ _ same => agree_argumentOf same
    | none => exact .ok .nil
  · rw [List.forall₂_eq_eq_eq] at all
    subst all
    rw [same.text_eq]
    exact .ok rfl

theorem agree_bodyOf (displaced : Displaced source source' tree tree') :
    Agree Eq (bodyOf source tree) (bodyOf source' tree') := by
  induction tree using Tree.induction generalizing tree' with
  | step tree induction =>
  have all : ∀ name, AgreeAll ((tree.children name).map (bodyOf source))
      ((tree'.children name).map (bodyOf source')) := by
    intro name
    have both := (List.forall₂_and_left _ _).mpr
      ⟨fun part member => List.mem_of_mem_filter member, displaced.children name⟩
    rw [AgreeAll, List.forall₂_map_left_iff, List.forall₂_map_right_iff]
    exact both.imp fun part _ ⟨member, same⟩ => induction part member same
  have one : ∀ name, Option.Rel (Agree Eq) ((tree.child? name).map (bodyOf source))
      ((tree'.child? name).map (bodyOf source')) := by
    intro name
    simpa [Tree.children, Tree.child?] using rel_head? (all name)
  simp only [Tree.children, Tree.child?] at all one
  rw [bodyOf_eq, bodyOf_eq, bodyParts.eq_def, bodyParts.eq_def, displaced.name_eq]
  simp only [partsOf_map, part?_map]
  generalize tree'.name = kind
  split
  · exact (agree_all (all _)).bind fun _ _ same => .ok (congrArg _ same)
  · exact (agree_all (all _)).bind fun _ _ same => .ok (congrArg _ same)
  · exact agree_differenceOf displaced (all _)
  · exact agree_quantifiedOf displaced (one _)
  · have parts := displaced.content
    generalize tree.content = left, tree'.content = right at parts induction
    cases parts with
    | nil => exact .error
    | cons head _ => exact induction _ List.mem_cons_self head
  · exact agree_getD (one _)
  · exact agree_lookaroundOf displaced (one _)
  · exact agree_specialOf displaced
  · exact (agree_rangeOf displaced).map fun _ _ same => congrArg Node.chars same
  · exact (agree_hexOf displaced).map fun _ _ same => by rw [same]
  · rw [displaced.text_eq]
    exact .ok rfl
  · exact .ok rfl
  · exact agree_referenceOf displaced
  · exact .error

/-! ### Clauses -/

private theorem agree_declared (displaced : Displaced source source' tree tree') :
    Agree Eq (Head.declared source tree) (Head.declared source' tree') := by
  refine (agree_literalOf displaced).bind fun literal _ same => ?_
  subst same
  cases literal with
  | some value => exact .ok rfl
  | none =>
      have found := displaced.child? "param-sum"
      dsimp only
      generalize tree.child? "param-sum" = left, tree'.child? "param-sum" = right at found
      cases found with
      | none => exact .error
      | some same =>
          refine (agree_sumOf same).bind fun sum _ same => ?_
          subst same
          split
          · exact .ok rfl
          · split
            · exact .ok rfl
            · exact .error

private theorem agree_add (head : Head) (displaced : Displaced source source' tree tree') :
    Agree Eq (head.add source tree) (head.add source' tree') := by
  refine (agree_declared displaced).bind fun declared _ same => ?_
  subst same
  dsimp only
  split
  · exact .error
  · split
    · exact .ok rfl
    · split
      · exact .ok rfl
      · exact .error

private theorem agree_sectionNumber (displaced : Displaced source source' tree tree') :
    Agree Eq (sectionNumber source tree) (sectionNumber source' tree') := by
  refine (displaced.required "decimal").bind fun _ _ same => ?_
  dsimp only
  rw [same.text_eq]
  split
  · exact .ok rfl
  · exact .error

private theorem significant_ofTree (source : List Char) (tree : Tree) :
    (Part.ofTree source tree).significant =
      (tree.content.filter (·.name ≠ "s-ignorable")).map (Part.ofTree source) := by
  rw [Part.significant, Part.ofTree_eq, List.filter_map]
  simp only [Function.comp_def, name_ofTree]

/-- What is found in a tree behind its spaces and comments. -/
theorem rel_child? (same : (Part.ofTree source tree).significant =
      (Part.ofTree source' tree').significant) (other : name ≠ "s-ignorable") :
    Option.Rel (Displaced source source') (tree.child? name) (tree'.child? name) := by
  have skips : ∀ tree : Tree, tree.child? name =
      ((tree.content.filter (·.name ≠ "s-ignorable")).filter (·.name = name)).head? := by
    intro tree
    rw [Tree.child?, List.head?_filter, List.find?_filter]
    congr 1
    funext part
    by_cases named : part.name = name
    · simp [named, other]
    · simp [named]
  rw [significant_ofTree, significant_ofTree] at same
  rw [skips, skips]
  refine rel_head? (List.rel_filter (fun part part' displaced => ?_) (forall₂_displaced same))
  change decide (part.name = name) = true ↔ decide (part'.name = name) = true
  rw [displaced.name_eq]

/-- Two clauses are the same but for their places. -/
structure SameClause (source source' : List Char) (clause clause' : Clause) : Prop where
  name : clause.name = clause'.name
  formals : clause.formals = clause'.formals
  pattern : clause.pattern = clause'.pattern
  number : clause.number = clause'.number
  body : Displaced source source' clause.body clause'.body

theorem agree_clause (same : (Part.ofTree source tree).significant =
      (Part.ofTree source' tree').significant) :
    Agree (SameClause source source') (Clause.ofTree source tree)
      (Clause.ofTree source' tree') := by
  have label := rel_child? same (by decide : "section-number" ≠ "s-ignorable")
  have list := rel_child? same (by decide : "parameter-list" ≠ "s-ignorable")
  rw [Clause.ofTree_eq, Clause.ofTree_eq]
  refine (agree_required (rel_child? same (by decide))).bind fun name name' named => ?_
  generalize tree.child? "section-number" = left, tree'.child? "section-number" = right at label
  generalize tree.child? "parameter-list" = left', tree'.child? "parameter-list" = right' at list
  have number : Agree Eq (Clause.numberOf source left) (Clause.numberOf source' right) := by
    cases label with
    | some same => exact (agree_sectionNumber same).map fun _ _ same => congrArg some same
    | none => exact .ok rfl
  have parameters : List.Forall₂ (Displaced source source') (parametersOf left')
      (parametersOf right') := by
    cases list with
    | some same => exact same.children "parameter"
    | none => exact .nil
  have head : Agree Eq ((parametersOf left').foldlM (Head.add source) {})
      ((parametersOf right').foldlM (Head.add source') {}) :=
    Agree.foldlM parameters fun head _ _ same => agree_add head same
  refine number.bind fun number _ equal => head.bind fun head _ equal' => ?_
  subst equal equal'
  refine (agree_required (rel_child? same (by decide))).bind fun body body' displaced => ?_
  exact .ok ⟨named.text_eq, rfl, rfl, rfl, displaced⟩

end Bnf

end ParametricGrammar
