import ParametricGrammar.Proofs.Dialect.ParameterExpressions
import ParametricGrammar.Proofs.Dialect.PrintedClauses
/-!
# Parameters of heads

A head declares formals and literals. What a sum in a head declares is decided by its coefficients:
one term with the coefficient of a formal is that formal, and a sum without coefficients is a
literal. So a sum in which `n` and `m` cancel is taken for a literal as well, and that is the only
other sum that a head can have.
-/

namespace ParametricGrammar

namespace Bnf

namespace Dialect

variable {source : List Char} {tree : Tree} {total : Total} {sum : Sum}

/-! ### Sums in heads -/

namespace Total

/-- A sum is a bare formal, or mentions none. -/
def IsDeclaration (total : Total) : Prop :=
  (∃ formal, total = ⟨.formal formal, []⟩) ∨ ∀ formal, ¬ total.signed.Mentions formal

/-- A sum mentions `n` or `m`, both with as many plus as minus signs, and nothing else but
integers. -/
structure Cancels (total : Total) : Prop where
  mentions : total.signed.Mentions .n ∨ total.signed.Mentions .m
  n : total.signed.net .n = 0
  m : total.signed.net .m = 0
  noContext : ¬ total.signed.Mentions .c
  noChomping : ¬ total.signed.Mentions .t

private theorem mentions_bare (formal : Formal) :
    (⟨.formal formal, []⟩ : Total).signed.Mentions formal :=
  ⟨1, List.mem_cons_self⟩

private theorem net_bare (formal : Formal) :
    (⟨.formal formal, []⟩ : Total).signed.net formal = 1 := by
  simp [signed, Term.count]

/-- What is gathered to one formal is that formal. -/
theorem eq_bare (summed : total.sum? = some sum) {formal : Formal}
    (found : sum.formal? = some formal) : ∃ formal, total = ⟨.formal formal, []⟩ := by
  have gathered := gathers summed
  obtain ⟨first, more⟩ := total
  unfold Sum.formal? at found
  split at found
  · cases found
  · rename_i one
    have none : more = [] := by
      have length := gathered.length
      simpa [signed, not_not.mp one] using length
    subst none
    cases first with
    | formal other => exact ⟨other, rfl⟩
    | number value =>
        have zero : ∀ name, coefficient sum name = 0 := fun name =>
          (gathered.net name).trans (by cases name <;> simp [signed, Term.count, coefficient])
        have n : sum.n = 0 := zero .n
        have m : sum.m = 0 := zero .m
        have c : sum.c = 0 := zero .c
        have t : sum.t = 0 := zero .t
        simp [n, m, c, t] at found

/-- A sum that is gathered to a formal or to a constant is a declaration unless it cancels. -/
theorem isDeclaration_iff (summed : total.sum? = some sum)
    (declares : sum.formal?.isSome = true ∨ sum.isConstant = true) :
    total.IsDeclaration ↔ ¬ total.Cancels := by
  rcases declares with some | constant
  · obtain ⟨formal, found⟩ := Option.isSome_iff_exists.mp some
    obtain ⟨name, rfl⟩ := eq_bare summed found
    refine iff_of_true (.inl ⟨name, rfl⟩) fun cancels => ?_
    cases name with
    | n => exact absurd cancels.n (by simp [net_bare])
    | m => exact absurd cancels.m (by simp [net_bare])
    | c => exact cancels.noContext (mentions_bare .c)
    | t => exact cancels.noChomping (mentions_bare .t)
  · have gathered := gathers summed
    simp only [Sum.isConstant, Bool.and_eq_true, decide_eq_true_eq] at constant
    obtain ⟨⟨n, m⟩, none⟩ := constant
    have netN : total.signed.net .n = 0 := ((gathered.net .n).trans (zero_add _)).symm.trans n
    have netM : total.signed.net .m = 0 := ((gathered.net .m).trans (zero_add _)).symm.trans m
    obtain ⟨noContext, noChomping⟩ := enumerations_eq_zero_iff.mp
      ((gathered.enumerations.trans (zero_add _)).symm.trans none)
    constructor
    · rintro (⟨formal, rfl⟩ | silent) cancels
      · cases formal with
        | n => exact absurd netN (by simp [net_bare])
        | m => exact absurd netM (by simp [net_bare])
        | c => exact noContext (mentions_bare .c)
        | t => exact noChomping (mentions_bare .t)
      · exact cancels.mentions.elim (silent .n) (silent .m)
    · intro apart
      have silent : ¬ (total.signed.Mentions .n ∨ total.signed.Mentions .m) := fun mentions =>
        apart ⟨mentions, netN, netM, noContext, noChomping⟩
      refine .inr fun formal => ?_
      cases formal with
      | n => exact fun mentions => silent (.inl mentions)
      | m => exact fun mentions => silent (.inr mentions)
      | c => exact noContext
      | t => exact noChomping

private theorem IsSumOf.unique {other : Total} (spelled : total.IsSumOf source tree)
    (spelledOther : other.IsSumOf source tree) : total = other :=
  (spelledOther total).mp ((spelled total).mpr rfl)

end Total

/-! ### Parameters of heads -/

/-- A head parameter is a context, a chomping behaviour, a bare formal, or a sum that mentions no
formal. -/
def IsDeclaration (source : List Char) (parameter : Tree) : Prop :=
  (parameter.child? "context-value").isSome = true ∨
    (parameter.child? "chomping-value").isSome = true ∨
      ∃ sum total, parameter.child? "param-sum" = some sum ∧ Total.IsSumOf source sum total ∧
        total.IsDeclaration

/-- A head parameter is a sum in which `n` and `m` cancel. -/
def Cancels (source : List Char) (parameter : Tree) : Prop :=
  ∃ sum total, parameter.child? "param-sum" = some sum ∧ Total.IsSumOf source sum total ∧
    total.Cancels

/-- What is converted item by item is converted for each item. -/
theorem exists_of_mapM {α β ε : Type} {convert : α → Except ε β} {items : List α}
    {results : List β} (converted : items.mapM convert = .ok results) :
    ∀ item ∈ items, ∃ result, convert item = .ok result :=
  forall_of_forall₂ (mapM_eq_ok_iff.mp converted).flip fun result _ _ found => ⟨result, found⟩

/-- A parameter is read as a literal exactly if it is a context or a chomping behaviour. -/
theorem isSome_literal {literal : Option Value} (reads : literalOf source tree = .ok literal) :
    literal.isSome = true ↔ (tree.child? "context-value").isSome = true ∨
      (tree.child? "chomping-value").isSome = true := by
  unfold literalOf at reads
  split at reads
  · rename_i node context
    split at reads
    · cases reads
      simp [context]
    · cases reads
  · rename_i noContext
    split at reads
    · rename_i node chomping
      split at reads
      · cases reads
        simp [chomping]
      · cases reads
    · rename_i noChomping
      cases reads
      simp [noContext, noChomping]

/-- What a head declares is a declaration unless it cancels. -/
theorem Parsed.isDeclaration_iff {declared : Formal × Option Value} (parsed : Parsed source tree)
    (kind : tree.name = "parameter") (found : Head.declared source tree = .ok declared) :
    IsDeclaration source tree ↔ ¬ Cancels source tree := by
  have choice : rules.lookup "parameter" = some (.first
    (["in-flow", "context-value", "chomping-value", "param-sum"].map .call)) := rfl
  obtain ⟨part, only, -⟩ := parsed.one_of kind choice
  obtain ⟨literal, reads, found⟩ := bind_eq_ok_iff.mp found
  have literals := isSome_literal reads
  cases literal with
  | some value =>
      -- The only part is the literal, so there is no sum.
      have noSum : tree.child? "param-sum" = none := by
        have named : part.name = "context-value" ∨ part.name = "chomping-value" := by
          simpa [Tree.child?, only] using literals
        rcases named with named | named <;> simp [Tree.child?, only, named]
      refine iff_of_true ((literals.mp rfl).imp_right .inl) ?_
      rintro ⟨sum, _, found, -⟩
      rw [noSum] at found
      cases found
  | none =>
      have none := literals.not.mp (by simp)
      dsimp only at found
      split at found
      · cases found
      · rename_i sum child
        obtain ⟨gathered, read, found⟩ := bind_eq_ok_iff.mp found
        obtain ⟨inside, named⟩ := parsed.of_child? child
        obtain ⟨total, spelled, gathers⟩ := inside.exists_total named
        have summed : total.sum? = some gathered :=
          gathers.symm.trans (toOption_eq_some_iff.mpr read)
        have declares : gathered.formal?.isSome = true ∨ gathered.isConstant = true := by
          split at found
          · rename_i formal bare
            exact .inl (by simp [bare])
          · split at found
            · exact .inr ‹_›
            · cases found
        have only {holds : Total → Prop} : (∃ sum total, tree.child? "param-sum" = some sum ∧
            Total.IsSumOf source sum total ∧ holds total) ↔ holds total := by
          constructor
          · rintro ⟨other, spells, same, spelledOther, holds⟩
            obtain rfl : sum = other := Option.some.inj (child.symm.trans same)
            rwa [spelled.unique spelledOther]
          · exact fun holds => ⟨sum, total, child, spelled, holds⟩
        rw [IsDeclaration, ← or_assoc, or_iff_right none, Cancels, only, only]
        exact Total.isDeclaration_iff summed declares

/-- Heads accept formals and literals, and sums that cancel. In the tree of a text that is compiled,
each parameter of the head of a clause is a bare formal, a context, a chomping behaviour or a sum
that mentions no formal, unless it is a sum in which `n` and `m` cancel; and no parameter is
both. -/
theorem head_parameters_declare {text : String} {compiled : Grammar}
    (compiles : compile text = .ok compiled) :
    ∃ root, ((setting grammar).parseAll "grammar" text.toList).1 = .ok root ∧
      grammarOf text.toList root = .ok compiled ∧
        ∀ clause ∈ root.children "production",
          ∀ parameter ∈ parametersOf (clause.child? "parameter-list"),
            IsDeclaration text.toList parameter ↔ ¬ Cancels text.toList parameter := by
  obtain ⟨root, parses, translated⟩ := exists_tree_of_compile compiles
  refine ⟨root, parses, translated, fun clause inText parameter inHead => ?_⟩
  have parsedRoot : Parsed text.toList root :=
    parsed_of_parseAll rfl parses (0, root) (by cases root; exact List.mem_cons_self)
  have parsedClause := (parsedRoot.of_children inText).1
  have parsed : Parsed text.toList parameter ∧ parameter.name = "parameter" := by
    cases listed : clause.child? "parameter-list" with
    | none =>
        rw [listed] at inHead
        cases inHead
    | some list =>
        rw [listed] at inHead
        exact (parsedClause.of_child? listed).1.of_children inHead
  obtain ⟨clauses, read, -⟩ := bind_eq_ok_iff.mp translated
  obtain ⟨_, translates⟩ := exists_of_mapM read clause inText
  simp only [Clause.ofTree_eq, bind_eq_ok_iff] at translates
  obtain ⟨_, -, _, -, head, heads, -⟩ := translates
  obtain ⟨_, all, -⟩ := Head.exists_of_foldlM_add List.nodup_nil heads
  obtain ⟨_, declares⟩ := exists_of_mapM all parameter inHead
  exact parsed.1.isDeclaration_iff parsed.2 declares

/-- A head with a sum of integers, a bare name, a context and a bare name. -/
def mixedHead : String := "a(1-2,m,flow-in,t) ::= 'x'"

/-- What the head is compiled to. -/
def mixedCases : Grammar := .ofList [("a",
  { formals := [.n, .m, .c, .t]
    body := .cases [({ n := some (-1), c := some .flowIn }, .literal "x")] })]

theorem head_parameters_declare_mixed :
    compile mixedHead = .ok mixedCases ∧
      ∃ root, ((setting grammar).parseAll "grammar" mixedHead.toList).1 = .ok root ∧
        grammarOf mixedHead.toList root = .ok mixedCases ∧
          ∀ clause ∈ root.children "production",
            ∀ parameter ∈ parametersOf (clause.child? "parameter-list"),
              IsDeclaration mixedHead.toList parameter ↔ ¬ Cancels mixedHead.toList parameter := by
  have compiles : compile mixedHead = .ok mixedCases := compile_of_uncached (by decide +kernel)
  exact ⟨compiles, head_parameters_declare compiles⟩

/-- A sum in which a name cancels is accepted in a head, as the literal that remains. -/
theorem cancelled_head_accepted :
    compile "a(n-n+1) ::= 'x'" = .ok (.ofList [("a",
      { formals := [.n], body := .cases [({ n := some 1 }, .literal "x")] })]) :=
  compile_of_uncached (by decide +kernel)

end Dialect

end Bnf

end ParametricGrammar
