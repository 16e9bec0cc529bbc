import ParametricGrammar.Proofs.Dialect.Compiled
import ParametricGrammar.Proofs.Dialect.Lookups
/-!
# Translation of bodies

What the translation delivers from the tree of an argument, a count or a body is of the kind that
compiled grammars are made of, or it is an error about the text, never one about the tree.
-/

namespace ParametricGrammar

/-- Whether an error is that of a tree that lacks something. -/
def CompileError.isMalformed : CompileError → Bool
  | malformedTree _ _ => true
  | _ => false

/-- A result with a property, or an error other than that of a tree that lacks something. -/
def Delivers {α : Type} (holds : α → Prop) : Except CompileError α → Prop
  | .ok value => holds value
  | .error error => error.isMalformed = false

namespace Delivers

variable {α β : Type} {holds : α → Prop} {goal : β → Prop} {result : Except CompileError α}

theorem imp {others : α → Prop} (delivers : Delivers holds result)
    (implies : ∀ value, result = .ok value → holds value → others value) :
    Delivers others result := by
  cases result with
  | ok value => exact implies value rfl delivers
  | error error => exact delivers

private theorem and {others : α → Prop} (delivers : Delivers holds result)
    (more : Delivers others result) :
    Delivers (fun value => holds value ∧ others value) result := by
  cases result with
  | ok value => exact ⟨delivers, more⟩
  | error error => exact delivers

theorem bind {next : α → Except CompileError β} (delivers : Delivers holds result)
    (continues : ∀ value, holds value → Delivers goal (next value)) :
    Delivers goal (result >>= next) := by
  cases result with
  | ok value => exact continues value delivers
  | error error => exact delivers

theorem map {convert : α → β} (delivers : Delivers (fun value => goal (convert value)) result) :
    Delivers goal (result.map convert) := by
  cases result with
  | ok value => exact delivers
  | error error => exact delivers

private theorem of_toOption {value : α} (delivers : Delivers holds result)
    (found : result.toOption = some value) : holds value := by
  cases result with
  | ok other =>
      cases found
      exact delivers
  | error error => cases found

theorem ne_malformed (delivers : Delivers holds result) (expected : String) (span : Span) :
    result ≠ .error (.malformedTree expected span) := by
  rintro rfl
  cases delivers

theorem mapM {holds : α → β → Prop} {convert : α → Except CompileError β} {items : List α}
    (each : ∀ item ∈ items, Delivers (holds item) (convert item)) :
    Delivers (List.Forall₂ holds items) (items.mapM convert) := by
  induction items with
  | nil => exact .nil
  | cons item items induction =>
      rw [List.mapM_cons]
      refine (each item List.mem_cons_self).bind fun value first => ?_
      refine (induction fun other member => each other (.tail _ member)).bind fun values rest => ?_
      exact .cons first rest

theorem all {holds : β → Prop} {convert : α → Except CompileError β} {items : List α}
    (each : ∀ item ∈ items, Delivers holds (convert item)) :
    Delivers (fun values => ∀ value ∈ values, holds value) (items.mapM convert) :=
  (mapM each).imp fun _ _ related => forall_of_forall₂ related fun _ _ _ holds => holds

theorem foldlM {invariant : β → Prop} {step : β → α → Except CompileError β} {items : List α}
    {start : β} (begins : invariant start)
    (keeps : ∀ item ∈ items, ∀ before, invariant before → Delivers invariant (step before item)) :
    Delivers invariant (items.foldlM step start) := by
  induction items generalizing start with
  | nil => exact begins
  | cons item items induction =>
      rw [List.foldlM_cons]
      refine (keeps item List.mem_cons_self start begins).bind fun next kept => ?_
      exact induction kept fun other member => keeps other (.tail _ member)

end Delivers

theorem Tree.induction {motive : Tree → Prop}
    (step : ∀ tree, (∀ part ∈ tree.content, motive part) → motive tree) (tree : Tree) :
    motive tree :=
  step tree fun part _ => Tree.induction step part
termination_by sizeOf tree
decreasing_by
  rename_i member
  have smaller := List.sizeOf_lt_of_mem member
  cases tree
  simp only [Tree.mk.sizeOf_spec] at smaller ⊢
  omega

theorem Tree.required_eq {tree part : Tree} {name : String} (found : tree.child? name = some part) :
    tree.required name = .ok part := by
  rw [Tree.required, found]

namespace Bnf

namespace Dialect

variable {source : List Char} {tree part : Tree}

/-! ### Arguments and counts -/

theorem delivers_literalOf (parsed : Parsed source tree) :
    Delivers (fun literal => literal = none →
      tree.child? "context-value" = none ∧ tree.child? "chomping-value" = none)
        (literalOf source tree) := by
  unfold literalOf
  cases context : tree.child? "context-value" with
  | some node =>
      obtain ⟨inside, named⟩ := parsed.of_child? context
      obtain ⟨value, reads⟩ := inside.context? named
      simp [reads, Delivers]
  | none =>
      cases chomping : tree.child? "chomping-value" with
      | some node =>
          obtain ⟨inside, named⟩ := parsed.of_child? chomping
          obtain ⟨value, reads⟩ := inside.chomping? named
          simp [reads, Delivers]
      | none => simp [Delivers]

/-- A parameter that is no literal has a sum unless it is inside a flow collection. -/
theorem Parsed.sum_of_parameter (parsed : Parsed source tree) (kind : tree.name = "parameter")
    (context : tree.child? "context-value" = none) (chomping : tree.child? "chomping-value" = none)
    (flow : tree.child? "in-flow" = none) : ∃ sum, tree.child? "param-sum" = some sum := by
  have succeed := parsed.lookupsSucceed
  rw [LookupsSucceed, kind] at succeed
  simpa [context, chomping, flow, Option.isSome_iff_exists] using succeed

/-- The constant of a sum is in the range of 32 bits. -/
def InRange (sum : Sum) : Prop := -2147483648 ≤ sum.constant ∧ sum.constant ≤ 2147483647

private theorem InRange.addFormal {sum : Sum} (range : InRange sum) (sign : Int) (formal : Formal) :
    InRange (sum.addFormal sign formal) := by
  cases formal <;> exact range

private theorem inRange_of_addNumber? {sum next : Sum} {sign value : Int}
    (added : sum.addNumber? sign value = some next) : InRange next := by
  unfold Sum.addNumber? at added
  split at added
  · rename_i range
    cases added
    unfold Numeral.int32? at range
    split at range
    · assumption
    · cases range
  · cases added

private theorem delivers_decimalValue : Delivers (fun _ => True) (decimalValue source tree) := by
  unfold decimalValue
  dsimp only
  split <;> trivial

private theorem delivers_addTerm {whole : Tree} {sum : Sum} {sign : Int}
    (parsed : Parsed source tree) (kind : tree.name = "param-term") (range : InRange sum) :
    Delivers InRange (addTerm source whole sum sign tree) := by
  unfold addTerm
  cases letter : tree.child? "param-variable" with
  | some named =>
      obtain ⟨inside, kind⟩ := parsed.of_child? letter
      obtain ⟨formal, reads⟩ := inside.formal? kind
      simp only [reads]
      exact range.addFormal sign formal
  | none =>
      have succeed := parsed.lookupsSucceed
      rw [LookupsSucceed, kind] at succeed
      obtain ⟨decimal, found⟩ : ∃ decimal, tree.child? "decimal" = some decimal := by
        simpa [letter, Option.isSome_iff_exists] using succeed
      rw [Tree.required_eq found]
      have reads : Delivers _ (decimalValue source decimal) := delivers_decimalValue
      refine reads.bind fun value _ => ?_
      cases added : sum.addNumber? sign value with
      | some next => exact inRange_of_addNumber? added
      | none => trivial

private theorem delivers_gather {whole : Tree} {sum : Sum} {sign : Int} {parts : List Tree}
    (parsed : ∀ part ∈ parts, Parsed source part) (range : InRange sum) :
    Delivers InRange (gather source whole sum sign parts) := by
  induction parts generalizing sum sign with
  | nil => exact range
  | cons part parts induction =>
      have later := fun other member => parsed other (List.mem_cons_of_mem part member)
      rw [gather]
      split
      · exact induction later range
      · split
        · rename_i kind
          have delivers : Delivers InRange (addTerm source whole sum sign part) :=
            delivers_addTerm (parsed part List.mem_cons_self) kind range
          cases added : addTerm source whole sum sign part with
          | ok next =>
              rw [added] at delivers
              exact induction later delivers
          | error error =>
              rw [added] at delivers
              exact delivers
        · exact induction later range

theorem delivers_sumOf (parsed : Parsed source tree) : Delivers InRange (sumOf source tree) :=
  delivers_gather (fun _ => parsed.part) ⟨by decide, by decide⟩

private theorem isArgument_of_binding? {sum : Sum} {binding : Binding}
    (found : sum.binding? = some binding) : binding.isArgument = true := by
  unfold Sum.binding? at found
  split at found
  · cases found
    rfl
  · cases found
    rfl
  · split at found
    · cases found
    · rename_i few
      split at found
      · rename_i coefficients
        split at found
        · cases found
          rfl
        · rename_i mentions
          cases found
          have none : sum.enumerations = 0 := by omega
          have some : ¬ (sum.n = 0 ∧ sum.m = 0) := by simpa [Sum.isConstant, none] using mentions
          rcases coefficients with ⟨_ | one, _ | one'⟩ <;> simp_all [Binding.isArgument]
      · cases found

private theorem delivers_argumentOf (parsed : Parsed source tree) (kind : tree.name = "parameter") :
    Delivers (fun binding => binding.isArgument = true) (argumentOf source tree) := by
  unfold argumentOf
  refine (delivers_literalOf parsed).bind fun literal plain => ?_
  cases literal with
  | some value => rfl
  | none =>
      obtain ⟨context, chomping⟩ := plain rfl
      cases flow : tree.child? "in-flow" with
      | some inFlow =>
          obtain ⟨inside, named⟩ := parsed.of_child? flow
          obtain ⟨letter, found⟩ := inside.exists_child? named rfl
            (by simp : Node.call "param-variable" ∈ _)
          simp only [Tree.required_eq found]
          change Delivers _ (if _ then _ else _)
          split <;> rfl
      | none =>
          obtain ⟨sum, found⟩ := parsed.sum_of_parameter kind context chomping flow
          simp only [Tree.required_eq found]
          refine (delivers_sumOf (parsed.of_child? found).1).bind fun total _ => ?_
          cases binds : total.binding? with
          | some binding => exact isArgument_of_binding? binds
          | none => rfl

private theorem delivers_boundOf (parsed : Parsed source tree) :
    Delivers (fun bound => bound.isCount = true) (boundOf source tree) := by
  unfold boundOf
  refine (delivers_sumOf parsed).bind fun sum range => ?_
  split
  · split
    · rename_i positive
      obtain ⟨-, most⟩ := range
      have below : sum.constant.toNat < 2147483648 := by omega
      have value : (UInt32.ofNat sum.constant.toNat).toNat = sum.constant.toNat :=
        UInt32.toNat_ofNat_of_lt' (by simp [UInt32.size]; omega)
      refine decide_eq_true ?_
      rwa [value]
    · rfl
  · split
    · rename_i found
      exact isArgument_of_binding? found
    · rfl

/-! ### Character sets -/

private theorem delivers_hexOf : Delivers (· ≤ CharSet.maxCodePoint) (hexOf source tree) := by
  unfold hexOf
  dsimp only
  split
  · split
    · rename_i code _ valid
      have value : (UInt32.ofNat code).toNat = code :=
        UInt32.toNat_ofNat_of_lt' (valid.trans_lt (by decide))
      simpa only [Delivers, UInt32.le_iff_toNat_le, value] using valid
    · rfl
  · rfl

private theorem val_le_maxCodePoint (char : Char) : char.val ≤ CharSet.maxCodePoint := by
  have below := toNat_lt char
  rw [UInt32.le_iff_toNat_le]
  exact Nat.le_of_lt_succ below

private theorem delivers_rangeBoundOf (parsed : Parsed source tree)
    (kind : tree.name = "range-bound") :
    Delivers (· ≤ CharSet.maxCodePoint) (rangeBoundOf source tree) := by
  unfold rangeBoundOf
  cases hex : tree.child? "hex-char" with
  | some part => exact delivers_hexOf
  | none =>
      have succeed := parsed.lookupsSucceed
      rw [LookupsSucceed, kind] at succeed
      obtain ⟨quoted, found⟩ : ∃ quoted, tree.child? "quoted-char" = some quoted := by
        simpa [hex, Option.isSome_iff_exists] using succeed
      obtain ⟨inside, named⟩ := parsed.of_child? found
      obtain ⟨quote, char, written⟩ := inside.quotedChar named
      simp only [Tree.required_eq found, bind, Except.bind, written, quotedContent,
        String.toList_ofList]
      exact val_le_maxCodePoint char

private theorem delivers_rangeOf (parsed : Parsed source tree)
    (kind : tree.name = "code-point-range") :
    Delivers CharSet.Valid (rangeOf source tree) := by
  obtain ⟨left, right, both⟩ := parsed.rangeBounds kind
  have bounds : ∀ bound ∈ [left, right],
      Delivers (· ≤ CharSet.maxCodePoint) (rangeBoundOf source bound) := by
    rw [← both]
    exact fun bound member =>
      delivers_rangeBoundOf (parsed.of_children member).1 (parsed.of_children member).2
  simp only [rangeOf, both]
  refine (bounds left (by simp)).bind fun first validFirst => ?_
  refine (bounds right (by simp)).bind fun last validLast => ?_
  exact CharSet.valid_ofRanges (by simpa using ⟨validFirst, validLast⟩)

private theorem valid_foldl {combine : CharSet → CharSet → CharSet} {sets : List (Option CharSet)}
    {start : Option CharSet} {set : CharSet}
    (keeps : ∀ {left right : CharSet}, left.Valid → right.Valid → (combine left right).Valid)
    (begins : ∀ set, start = some set → set.Valid) (valid : ∀ set, some set ∈ sets → set.Valid)
    (found : sets.foldl (fun all set => all.bind fun all => set.map (combine all)) start =
      some set) : set.Valid := by
  induction sets generalizing start with
  | nil => exact begins set found
  | cons next sets induction =>
      refine induction ?_ (fun other member => valid other (.tail _ member)) found
      intro both combined
      obtain ⟨all, rfl, mapped⟩ := Option.bind_eq_some_iff.mp combined
      obtain ⟨other, rfl, rfl⟩ := Option.map_eq_some_iff.mp mapped
      exact keeps (begins all rfl) (valid other List.mem_cons_self)

private theorem valid_unionAll {sets : List (Option CharSet)} {set : CharSet}
    (valid : ∀ set, some set ∈ sets → set.Valid) (found : unionAll sets = some set) :
    set.Valid := by
  unfold unionAll at found
  split at found
  · cases found
    exact CharSet.valid_empty
  · refine valid_foldl CharSet.Valid.union ?_ valid found
    rintro _ ⟨⟩
    exact CharSet.valid_empty

private theorem valid_differenceAll {sets : List (Option CharSet)} {set : CharSet}
    (valid : ∀ set, some set ∈ sets → set.Valid) (found : differenceAll sets = some set) :
    set.Valid := by
  unfold differenceAll at found
  split at found
  · cases found
  · refine valid_foldl CharSet.Valid.minus ?_ (fun other member => valid other (.tail _ member))
      found
    rintro other rfl
    exact valid other List.mem_cons_self

/-! ### Bodies -/

/-- What the translation of a tree of a body delivers: a compiled expression, one that matches one
character if the tree is known to, and only valid sets. -/
structure Translated (source : List Char) (tree : Tree) : Prop where
  body : Delivers Compiled (bodyOf source tree)
  fold : ∀ set, fold? source tree = some set → set.Valid
  single : isSingle source tree = true → Delivers Single (bodyOf source tree)

private theorem delivers_soleOr {holds : Node → Prop} {combine : List Node → Node}
    {trees : List Tree} (each : ∀ part ∈ trees, Delivers holds (bodyOf source part))
    (combines : ∀ nodes, nodes.length = trees.length → (∀ node ∈ nodes, holds node) →
      holds (soleOr combine nodes)) :
    Delivers holds
      ((trees.map (bodyOf source)).mapM id >>= fun nodes => return soleOr combine nodes) := by
  have all : Delivers (List.Forall₂ (fun _ node => holds node) (trees.map (bodyOf source)))
      ((trees.map (bodyOf source)).mapM id) := by
    refine Delivers.mapM fun result member => ?_
    obtain ⟨part, among, rfl⟩ := List.mem_map.mp member
    exact each part among
  refine all.bind fun nodes related => combines nodes ?_ ?_
  · rw [← related.length_eq, List.length_map]
  · exact forall_of_forall₂ related fun _ _ _ holds => holds

/-- What guards of an expression deliver, guarded by them. -/
theorem delivers_guarded {holds goal : Node → Prop} {first : Except CompileError Node}
    {excluded : List (Except CompileError Node)} (some : excluded ≠ [])
    (head : Delivers holds first) (others : ∀ operand ∈ excluded, Delivers Compiled operand)
    (combines : ∀ guards last, guards ≠ [] →
      (∀ guard ∈ guards, Compiled guard ∧ ∃ node, guard = .notAhead node) → holds last →
        goal (.sequence (guards ++ [last]))) : Delivers goal (guarded first excluded) := by
  have all : Delivers (List.Forall₂
      (fun _ guard => Compiled guard ∧ ∃ node, guard = Node.notAhead node) excluded)
      (excluded.mapM fun operand => operand.map Node.notAhead) := by
    refine Delivers.mapM fun operand member => Delivers.map ?_
    exact (others operand member).imp fun node _ compiled => ⟨.lookahead compiled, node, rfl⟩
  refine all.bind fun guards related => head.bind fun last single => combines guards last ?_ ?_
    single
  · rintro rfl
    exact some (List.forall₂_nil_right_iff.mp related)
  · exact forall_of_forall₂ related fun _ _ _ holds => holds

private theorem mem_map_fold? {trees : List Tree}
    (inside : ∀ part ∈ trees, Translated source part) :
    ∀ set, some set ∈ trees.map (fold? source) → set.Valid := by
  intro set member
  obtain ⟨part, among, folded⟩ := List.mem_map.mp member
  exact (inside part among).fold set folded

namespace Translated

private theorem of_echoes {part : Tree} (echoes : Echoes source tree part)
    (inside : Translated source part) : Translated source tree where
  body := echoes.body ▸ inside.body
  fold set folded := inside.fold set (echoes.fold ▸ folded)
  single one := echoes.body ▸ inside.single (echoes.single ▸ one)

private theorem alternation (parsed : Parsed source tree) (kind : tree.name = "alternation")
    (inside : ∀ part ∈ tree.children "sequence", Translated source part) :
    Translated source tree := by
  have positive := List.length_pos_of_ne_nil
    (parsed.children_ne_nil kind rfl (by simp : Node.call "sequence" ∈ _))
  have body : bodyOf source tree = (((tree.children "sequence").map (bodyOf source)).mapM id >>=
      fun nodes => return soleOr .first nodes) := by
    rw [bodyOf_eq, bodyParts.eq_def, kind]
    simp only [partsOf_map]
    rfl
  refine ⟨?_, fun set folded => ?_, fun single => ?_⟩
  · rw [body]
    exact delivers_soleOr (fun part member => (inside part member).body)
      fun _ same => Compiled.soleOr_first (same ▸ positive)
  · rw [fold?_eq, foldParts.eq_def, kind] at folded
    simp only [partsOf_map] at folded
    exact valid_unionAll (mem_map_fold? inside) folded
  · rw [isSingle_eq, singleParts.eq_def, kind] at single
    simp only [partsOf_map, List.all_map, List.all_eq_true] at single
    rw [body]
    exact delivers_soleOr (fun part member => (inside part member).single (single part member))
      fun _ _ => Single.soleOr_first

private theorem sequence (parsed : Parsed source tree) (kind : tree.name = "sequence")
    (inside : ∀ part ∈ tree.children "difference", Translated source part) :
    Translated source tree := by
  have positive := List.length_pos_of_ne_nil
    (parsed.children_ne_nil kind rfl (by simp : Node.call "difference" ∈ _))
  have body : bodyOf source tree = (((tree.children "difference").map (bodyOf source)).mapM id >>=
      fun nodes => return soleOr .sequence nodes) := by
    rw [bodyOf_eq, bodyParts.eq_def, kind]
    simp only [partsOf_map]
    rfl
  refine ⟨?_, fun set folded => ?_, fun single => ?_⟩
  · rw [body]
    exact delivers_soleOr (fun part member => (inside part member).body)
      fun _ same => Compiled.soleOr_sequence (same ▸ positive)
  · rw [fold?_eq, foldParts.eq_def, kind] at folded
    simp only [partsOf_map] at folded
    split at folded
    · rename_i only same
      refine mem_map_fold? inside set ?_
      rw [Tree.children, same, folded]
      exact List.mem_singleton_self _
    · cases folded
  · rw [isSingle_eq, singleParts.eq_def, kind] at single
    simp only [partsOf_map] at single
    split at single
    · rename_i only same
      obtain ⟨part, children, rfl⟩ := List.map_eq_singleton_iff.mp same
      have member : part ∈ tree.children "difference" := by
        rw [Tree.children, children]
        exact List.mem_singleton_self part
      rw [body, Tree.children, children]
      refine delivers_soleOr (by simpa using (inside part member).single single) ?_
      intro nodes same all
      obtain ⟨node, rfl⟩ := List.length_eq_one_iff.mp same
      exact all node (List.mem_singleton_self node)
    · cases single

private theorem difference (parsed : Parsed source tree) (kind : tree.name = "difference")
    (inside : ∀ part ∈ tree.children "quantified", Translated source part) :
    Translated source tree := by
  have some := parsed.children_ne_nil kind rfl (by simp : Node.call "quantified" ∈ _)
  obtain ⟨first, excluded, both⟩ := List.exists_cons_of_ne_nil some
  have fold : ∀ set, fold? source tree = Option.some set → set.Valid := by
    intro set folded
    rw [fold?_eq, foldParts.eq_def, kind] at folded
    simp only [partsOf_map] at folded
    exact valid_differenceAll (mem_map_fold? inside) folded
  rw [both] at inside
  have head := inside first List.mem_cons_self
  have body : bodyOf source tree =
      differenceOf source tree ((first :: excluded).map (bodyOf source)) := by
    rw [bodyOf_eq, bodyParts.eq_def, kind, ← both]
    simp only [partsOf_map]
    rfl
  have excludes : ∀ operand ∈ excluded.map (bodyOf source), Delivers Compiled operand := by
    intro operand member
    obtain ⟨part, among, rfl⟩ := List.mem_map.mp member
    exact (inside part (.tail _ among)).body
  refine ⟨?_, fold, fun single => ?_⟩
  · rw [body]
    cases excluded with
    | nil => exact head.body
    | cons second more =>
        simp only [differenceOf, List.map_cons]
        cases folded : fold? source tree with
        | some set => exact Compiled.chars (fold set folded)
        | none =>
            exact delivers_guarded (by simp) head.body excludes fun guards last some all =>
              .guarded some fun guard member => (all guard member).1
  · rw [isSingle_eq, singleParts.eq_def, kind] at single
    simp only [partsOf_map] at single
    rw [← Tree.children, both] at single
    rw [body]
    cases excluded with
    | nil => exact head.single single
    | cons second more =>
        simp only [differenceOf, List.map_cons]
        cases folded : fold? source tree with
        | some set => exact Single.chars set
        | none =>
            exact delivers_guarded (by simp) (head.single single) excludes
              fun guards last some all => .guarded some fun guard member => (all guard member).2

private theorem quantified (parsed : Parsed source tree) (kind : tree.name = "quantified")
    (inside : ∀ part, tree.child? "atom" = some part → Translated source part) :
    Translated source tree := by
  obtain ⟨atom, found⟩ := parsed.exists_child? kind rfl (by simp : Node.call "atom" ∈ _)
  have whole := inside atom found
  have body : bodyOf source tree = quantifiedOf source tree (some (bodyOf source atom)) := by
    rw [bodyOf_eq, bodyParts.eq_def, kind]
    simp only [part?_map]
    rw [← Tree.child?, found]
    rfl
  refine ⟨?_, fun set folded => ?_, fun single => ?_⟩
  · rw [body]
    refine whole.body.bind fun node compiled => ?_
    cases behind : tree.child? "quantifier" with
    | none => exact compiled
    | some quantifier =>
        obtain ⟨parsedQuantifier, named⟩ := parsed.of_child? behind
        dsimp only
        split
        · exact Compiled.marked .optional compiled
        · exact Compiled.marked .zeroOrMore compiled
        · exact Compiled.marked .oneOrMore compiled
        · rename_i noOptional noZero noOne
          rcases parsedQuantifier.quantifier named with ⟨mark, written, -⟩ | ⟨-, sum, counts⟩
          · cases mark
            · exact absurd written noOptional
            · exact absurd written noZero
            · exact absurd written noOne
          · simp only [Tree.required_eq counts]
            exact (delivers_boundOf (parsedQuantifier.of_child? counts).1).bind
              fun count valid => .counted valid compiled
  · rw [fold?_eq, foldParts.eq_def, kind] at folded
    simp only [part?_map] at folded
    rw [← Tree.child?, found] at folded
    split at folded
    · cases folded
    · exact whole.fold set folded
  · rw [isSingle_eq, singleParts.eq_def, kind] at single
    simp only [part?_map, Bool.and_eq_true] at single
    rw [← Tree.child?, found] at single
    rw [body]
    refine (whole.single single.2).bind fun node one => ?_
    rw [Option.isNone_iff_eq_none.mp single.1]
    exact one

/-- A tree without parts that denotes something, of a kind that folds to valid sets. -/
theorem of_denotes {meaning : Meaning} (denotes : Denotes source tree meaning)
    (compiled : Compiled meaning.node) (valid : ∀ set, meaning.set? = some set → set.Valid)
    (single : meaning.single = true → Single meaning.node) : Translated source tree := by
  refine ⟨?_, fun set folded => valid set (denotes.fold ▸ folded), fun one => ?_⟩
  · rw [denotes.body]
    exact compiled
  · rw [denotes.body]
    exact single (denotes.single ▸ one)

/-- A tree whose expression is a set of characters, if that can be computed. -/
theorem of_chars {α : Type} {result : Except CompileError α} {convert : α → CharSet}
    (delivers : Delivers (fun value => (convert value).Valid) result)
    (body : bodyOf source tree = result.map fun value => .chars (convert value))
    (fold : fold? source tree = result.toOption.map convert) : Translated source tree := by
  refine ⟨?_, fun set folded => ?_, fun _ => ?_⟩
  · rw [body]
    exact (delivers.imp fun value _ valid => Compiled.chars valid).map
  · rw [fold] at folded
    obtain ⟨value, found, rfl⟩ := Option.map_eq_some_iff.mp folded
    exact delivers.of_toOption found
  · rw [body]
    exact (delivers.imp fun value _ _ => Single.chars (convert value)).map

private theorem group (parsed : Parsed source tree) (kind : tree.name = "group")
    (inside : ∀ part, tree.child? "alternation" = some part → Translated source part) :
    Translated source tree := by
  obtain ⟨body, found⟩ := parsed.exists_child? kind rfl (by simp : Node.call "alternation" ∈ _)
  exact .of_echoes (.group kind found) (inside body found)

private theorem lookaround (parsed : Parsed source tree) (kind : tree.name = "lookaround")
    (inside : ∀ part, tree.child? "alternation" = some part → Translated source part) :
    Translated source tree := by
  obtain ⟨body, found⟩ := parsed.exists_child? kind rfl (by simp : Node.call "alternation" ∈ _)
  have whole := inside body found
  have fold : fold? source tree = none := by
    rw [fold?_eq, foldParts.eq_def, kind]
    rfl
  refine ⟨?_, by simp [fold], fun single => ?_⟩
  · rw [bodyOf_eq, bodyParts.eq_def, kind]
    simp only [part?_map, lookaroundOf, Tree.required_eq found]
    rw [← Tree.child?, found]
    change Delivers Compiled (if _ then _ else _)
    split
    · split
      · rename_i one
        cases folded : fold? source body with
        | some set => exact .lookbehind (.chars set) (.chars (whole.fold set folded))
        | none =>
            exact ((whole.single one).and whole.body).bind fun node both =>
              .lookbehind both.1 both.2
      · rfl
    · exact whole.body.bind fun node compiled => .lookahead compiled
  · rw [isSingle_eq, singleParts.eq_def, kind] at single
    simp [fold] at single

private theorem special (kind : tree.name = "special") : Translated source tree := by
  have fold : fold? source tree = none := by
    rw [fold?_eq, foldParts.eq_def, kind]
    rfl
  refine ⟨?_, by simp [fold], fun single => ?_⟩
  · rw [bodyOf_eq, bodyParts.eq_def, kind]
    simp only [specialOf]
    split
    · exact Compiled.empty
    · exact Compiled.startOfLine
    · exact Compiled.endOfInput
    · rfl
  · rw [isSingle_eq, singleParts.eq_def, kind] at single
    simp [fold] at single

private theorem codePointRange (parsed : Parsed source tree)
    (kind : tree.name = "code-point-range") :
    Translated source tree := by
  refine of_chars (delivers_rangeOf parsed kind) ?_ ?_
  · rw [bodyOf_eq, bodyParts.eq_def, kind]
    rfl
  · rw [fold?_eq, foldParts.eq_def, kind, Option.map_id']
    rfl

private theorem hexChar (kind : tree.name = "hex-char") : Translated source tree := by
  have delivers : Delivers (fun code => (CharSet.single code).Valid) (hexOf source tree) :=
    delivers_hexOf.imp fun code _ => CharSet.valid_single
  refine of_chars delivers ?_ ?_
  · rw [bodyOf_eq, bodyParts.eq_def, kind]
    rfl
  · rw [fold?_eq, foldParts.eq_def, kind]
    rfl

private theorem quotedString (parsed : Parsed source tree) (kind : tree.name = "quoted-string") :
    Translated source tree := by
  obtain ⟨quote, run, known, some, all, written⟩ := parsed.quotedString kind
  refine of_denotes (.quotedString kind written) (.literal known some all) ?_ ?_
  · intro set folded
    rcases run with _ | ⟨char, _ | ⟨second, more⟩⟩
    · cases folded
    · cases folded
      exact CharSet.valid_single (val_le_maxCodePoint char)
    · cases folded
  · intro one
    obtain ⟨char, rfl⟩ := List.length_eq_one_iff.mp (of_decide_eq_true one)
    exact .literal char

private theorem anyChar (kind : tree.name = "any-char") : Translated source tree :=
  of_denotes (.anyChar kind) (.chars CharSet.valid_any)
    (fun _ same => Option.some.inj same ▸ CharSet.valid_any) fun _ => .chars _

private theorem reference {label : Tree} {name : List Char} (parsed : Parsed source tree)
    (kind : tree.name = "reference") (found : tree.child? "production-name" = some label)
    (written : label.text source = String.ofList name) (valid : isName name = true)
    (other : isHexLike name = false) : Translated source tree := by
  have body : bodyOf source tree = referenceOf source tree := by
    rw [bodyOf_eq, bodyParts.eq_def, kind]
    rfl
  have fold : fold? source tree = none := by
    rw [fold?_eq, foldParts.eq_def, kind]
    rfl
  refine ⟨?_, by simp [fold], fun single => ?_⟩
  · rw [body]
    unfold referenceOf
    simp only [Tree.required_eq found]
    have compiled : ∀ values, (∀ value ∈ values, Binding.isArgument value = true) →
        Compiled (.reference (label.text source) values) := by
      rw [written]
      exact fun _ => .reference valid other
    change Delivers _ (List.mapM (argumentOf source) _ >>= _)
    refine .bind (.all fun parameter member => ?_) compiled
    cases behind : tree.child? "parameter-list" with
    | none => simp [behind] at member
    | some list =>
        simp only [behind] at member
        obtain ⟨inside, named⟩ := (parsed.of_child? behind).1.of_children member
        exact delivers_argumentOf inside named
  · rw [isSingle_eq, singleParts.eq_def, kind] at single
    rw [body]
    unfold referenceOf
    simp only [Tree.required_eq found, Option.isNone_iff_eq_none.mp single]
    exact Single.call _

private theorem atom (parsed : Parsed source tree) (kind : tree.name = "atom")
    (inside : ∀ part ∈ tree.content, part.name ∈ closedAtoms → Translated source part) :
    Translated source tree := by
  obtain ⟨part, only, form⟩ := parsed.atom kind
  have member : part ∈ tree.content := by simp [only]
  have whole : Translated source part := by
    rcases form with closed | ⟨named, label, name, found, written, valid, other⟩
    · exact inside part member closed
    · exact reference (parsed.part member) named found written valid other
  exact .of_echoes (.atom kind only) whole

end Translated

/-- The kinds of trees that bodies are made of, apart from references. -/
def bodyKinds : List String :=
  ["alternation", "sequence", "difference", "quantified", "atom"] ++ closedAtoms

/-- Every tree of a body is translated to a compiled expression or to an error about the text. -/
theorem Parsed.translated (parsed : Parsed source tree) (kind : tree.name ∈ bodyKinds) :
    Translated source tree := by
  induction tree using Tree.induction with
  | step tree induction =>
      have children : ∀ name ∈ bodyKinds, ∀ part ∈ tree.children name, Translated source part := by
        intro name known part member
        obtain ⟨inside, named⟩ := parsed.of_children member
        exact induction part (List.mem_of_mem_filter member) inside (named ▸ known)
      have child : ∀ name ∈ bodyKinds, ∀ part, tree.child? name = some part →
          Translated source part := by
        intro name known part found
        obtain ⟨inside, named⟩ := parsed.of_child? found
        exact induction part (List.mem_of_find?_eq_some found) inside (named ▸ known)
      have atoms : ∀ part ∈ tree.content, part.name ∈ closedAtoms → Translated source part :=
        fun part member closed =>
          induction part member (parsed.part member) (List.mem_append_right _ closed)
      simp only [bodyKinds, closedAtoms, List.cons_append, List.nil_append, List.mem_cons,
        List.not_mem_nil, or_false] at kind
      rcases kind with kind | kind | kind | kind | kind | kind | kind | kind | kind | kind | kind |
        kind
      · exact .alternation parsed kind (children _ (by decide))
      · exact .sequence parsed kind (children _ (by decide))
      · exact .difference parsed kind (children _ (by decide))
      · exact .quantified parsed kind (child _ (by decide))
      · exact .atom parsed kind atoms
      · exact .lookaround parsed kind (child _ (by decide))
      · exact .special kind
      · exact .group parsed kind (child _ (by decide))
      · exact .codePointRange parsed kind
      · exact .hexChar kind
      · exact .quotedString parsed kind
      · exact .anyChar kind

end Dialect

end Bnf

end ParametricGrammar
