import ParametricGrammar.Proofs.Dialect.ClauseTranslation
import ParametricGrammar.Proofs.Dialect.SumValues
/-!
# Parameter expressions

The arguments and counts of a grammar text mean the sums that they spell. A sum of integers, `n` and
`m` has its arithmetic value for every caller, a context or a chomping behaviour alone is that of
the caller, and as long as all numbers are in range, an argument is rejected only if it has no
binding. -/

namespace ParametricGrammar

namespace Bnf

namespace Dialect

variable {source : List Char} {tree sum : Tree} {total : Total}

/-- The text of a tree spells a sum. -/
def Total.SpelledBy (source : List Char) (tree : Tree) (total : Total) : Prop :=
  ∃ chars, slice? source tree.start tree.stop = some chars ∧ total.Spells chars

/-- A sum is the one that the text of a tree spells. -/
def Total.IsSumOf (source : List Char) (tree : Tree) (total : Total) : Prop :=
  ∀ other : Total, other.SpelledBy source tree ↔ other = total

/-- A binding means a sum for every caller. -/
structure Total.MeansArgument (total : Total) (binding : Binding) : Prop where
  value : ¬ total.signed.Mentions .c → ¬ total.signed.Mentions .t → ∀ caller : Parameters,
    total.signed.Bound caller → InInt32 (total.signed.value caller) →
      ∃ value, binding.resolve caller = .ok (.int value) ∧
        value.toInt = total.signed.value caller
  context : total = ⟨.formal .c, []⟩ → ∀ (caller : Parameters) (context : Context),
    caller.c = some context → binding.resolve caller = .ok (.context context)
  chomping : total = ⟨.formal .t, []⟩ → ∀ (caller : Parameters) (chomping : Chomping),
    caller.t = some chomping → binding.resolve caller = .ok (.chomping chomping)

/-- A count means a sum for every caller, a negative value read as zero. -/
structure Total.MeansCount (total : Total) (count : Bound) : Prop where
  noContext : ¬ total.signed.Mentions .c
  noChomping : ¬ total.signed.Mentions .t
  value (caller : Parameters) : total.signed.Bound caller →
    InInt32 (total.signed.value caller) →
      count.resolve caller = .ok (total.signed.value caller).toNat

theorem Parsed.exists_total (parsed : Parsed source tree) (kind : tree.name = "param-sum") :
    ∃ total, Total.IsSumOf source tree total ∧ (sumOf source tree).toOption = total.sum? := by
  obtain ⟨total, chars, written, spells, gathers⟩ := parsed.total kind
  refine ⟨total, fun other => ⟨?_, ?_⟩, gathers⟩
  · rintro ⟨text, same, spellsOther⟩
    obtain rfl : chars = text := Option.some.inj (written.symm.trans same)
    exact spellsOther.unique spells
  · rintro rfl
    exact ⟨chars, written, spells⟩

/-! ### Arguments -/

private theorem exists_of_any {α ε : Type} {result : Except ε α} {holds : α → Bool}
    (any : result.toOption.any holds = true) :
    ∃ value, result = .ok value ∧ holds value = true := by
  cases result with
  | ok value => exact ⟨value, rfl, any⟩
  | error error => cases any

/-- An argument that is a sum is what the sum is bound to. -/
theorem toOption_argumentOf (parsed : Parsed source tree) (kind : tree.name = "parameter")
    (found : tree.child? "param-sum" = some sum) :
    (argumentOf source tree).toOption = (sumOf source sum).toOption.bind Sum.binding? := by
  have choice : rules.lookup "parameter" = some (.first
    (["in-flow", "context-value", "chomping-value", "param-sum"].map .call)) := rfl
  obtain ⟨part, only, -⟩ := parsed.one_of kind choice
  have same : part = sum ∧ part.name = "param-sum" := by
    simpa [Tree.child?, only, List.find?_cons_eq_some, and_comm] using found
  obtain ⟨rfl, named⟩ := same
  have none : ∀ other, "param-sum" ≠ other → tree.child? other = none := by
    intro other apart
    simp [Tree.child?, only, named, apart]
  simp only [argumentOf, literalOf, none _ (by decide : "param-sum" ≠ "context-value"),
    none _ (by decide : "param-sum" ≠ "chomping-value"),
    none _ (by decide : "param-sum" ≠ "in-flow"), Tree.required_eq found, bind, Except.bind]
  cases sumOf source part with
  | error error => rfl
  | ok gathered =>
      dsimp only [Except.toOption, Option.bind_some]
      cases gathered.binding? <;> rfl

private theorem toInt_ofInt {value : Int} (range : InInt32 value) :
    (Int32.ofInt value).toInt = value :=
  Int32.toInt_ofInt_of_le (by simpa using range.1) (by have := range.2; omega)

private theorem Total.meansArgument {gathered : Sum} {binding : Binding}
    (found : total.sum? = some gathered) (bound : gathered.binding? = some binding) :
    total.MeansArgument binding where
  value noContext noChomping caller binds range :=
    ⟨_, resolve_eq (gathers found) (enumerations_eq_zero_iff.mpr ⟨noContext, noChomping⟩) bound
      binds, toInt_ofInt range⟩
  context alone caller context binds := by
    subst alone
    cases found
    cases bound
    simp [Binding.resolve, Parameters.requireC, binds, Except.map]
  chomping alone caller chomping binds := by
    subst alone
    cases found
    cases bound
    simp [Binding.resolve, Parameters.requireT, binds, Except.map]

/-! ### Counts -/

/-- Only a sum of integers, `n` and `m` is bound to an indentation. -/
theorem enumerations_of_indent {gathered : Sum} {n m : Bool} {offset : Int32}
    (bound : gathered.binding? = some (.indent n m offset)) : gathered.enumerations = 0 := by
  unfold Sum.binding? at bound
  split at bound
  · cases bound
  · cases bound
  · split at bound
    · cases bound
    · omega

private theorem Total.meansCount {count : Bound}
    (gathers : (sumOf source sum).toOption = total.sum?) (found : boundOf source sum = .ok count) :
    total.MeansCount count := by
  obtain ⟨gathered, read, found⟩ := bind_eq_ok_iff.mp found
  have summed : total.sum? = some gathered := gathers.symm.trans (toOption_eq_some_iff.mpr read)
  have coefficients := Total.gathers summed
  have numeric : gathered.enumerations = 0 → total.signed.enumerations = 0 := fun none =>
    (coefficients.enumerations.trans (zero_add _)).symm.trans none
  split at found
  · rename_i fixed
    simp only [Sum.isConstant, Bool.and_eq_true, decide_eq_true_eq] at fixed
    obtain ⟨⟨n, m⟩, none⟩ := fixed
    obtain ⟨noContext, noChomping⟩ := enumerations_eq_zero_iff.mp (numeric none)
    have netN : total.signed.net .n = 0 := ((coefficients.net .n).trans (zero_add _)).symm.trans n
    have netM : total.signed.net .m = 0 := ((coefficients.net .m).trans (zero_add _)).symm.trans m
    have constant : gathered.constant = total.signed.addends.sum :=
      coefficients.constant.trans (zero_add _)
    split at found
    · cases found
      refine ⟨noContext, noChomping, fun caller _ _ => ?_⟩
      have range : InInt32 gathered.constant := coefficients.range ⟨by decide, by decide⟩
      have small : gathered.constant.toNat < UInt32.size := by
        have most := range.2
        simp only [UInt32.size]
        omega
      rw [Bound.resolve, UInt32.toNat_ofNat_of_lt' small, value_eq, netN, netM, constant]
      simp
    · cases found
  · split at found
    · rename_i bound
      cases found
      obtain none := numeric (enumerations_of_indent bound)
      obtain ⟨noContext, noChomping⟩ := enumerations_eq_zero_iff.mp none
      refine ⟨noContext, noChomping, fun caller binds range => ?_⟩
      have resolves := resolve_eq coefficients none bound binds
      simp only [Bound.resolve, Binding.resolveInt, resolves, bind, Except.bind, pure, Except.pure,
        Except.map, toInt_ofInt range]
    · cases found

/-! ### Trees -/

/-- An argument that is a sum is the one that its text spells. Unless a number is out of range, it
is rejected exactly if the sum is unsupported. -/
def ArgumentRead (source : List Char) (parameter : Tree) : Prop :=
  ∀ sum, parameter.child? "param-sum" = some sum → ∃ total, Total.IsSumOf source sum total ∧
    (∀ binding, argumentOf source parameter = .ok binding → total.MeansArgument binding) ∧
    (total.Fits → ((∃ error, argumentOf source parameter = .error error) ↔ total.Unsupported))

private theorem Parsed.argumentRead (parsed : Parsed source tree) (kind : tree.name = "parameter") :
    ArgumentRead source tree := by
  intro sum found
  have argument := toOption_argumentOf parsed kind found
  obtain ⟨inside, named⟩ := parsed.of_child? found
  obtain ⟨total, spelled, gathers⟩ := inside.exists_total named
  rw [gathers] at argument
  refine ⟨total, spelled, fun binding read => ?_, fun fits => ?_⟩
  · rw [toOption_eq_some_iff.mpr read] at argument
    obtain ⟨gathered, summed, bound⟩ := Option.bind_eq_some_iff.mp argument.symm
    exact Total.meansArgument summed bound
  · obtain ⟨gathered, summed⟩ := fits.exists_sum?
    rw [← toOption_eq_none_iff, argument, summed, Option.bind_some]
    exact Total.binding?_eq_none_iff summed

/-- The expression of a reference has the bindings of its arguments. -/
theorem exists_arguments {node : Node} (kind : tree.name = "reference")
    (translated : bodyOf source tree = .ok node) :
    ∃ name bindings, node = .reference name bindings ∧
      List.Forall₂ (fun parameter binding => argumentOf source parameter = .ok binding)
        (parametersOf (tree.child? "parameter-list")) bindings := by
  rw [bodyOf_eq, bodyParts.eq_def, kind] at translated
  obtain ⟨label, -, rest⟩ := bind_eq_ok_iff.mp translated
  obtain ⟨bindings, read, same⟩ := bind_eq_ok_iff.mp rest
  cases same
  exact ⟨_, bindings, rfl, mapM_eq_ok_iff.mp read⟩

private theorem Parsed.exists_count {node : Node} {quantifier : Tree} (parsed : Parsed source tree)
    (kind : tree.name = "quantified") (behind : tree.child? "quantifier" = some quantifier)
    (counts : quantifier.child? "param-sum" = some sum)
    (translated : bodyOf source tree = .ok node) :
    ∃ atom count, node = .repeated atom count (some count) ∧ boundOf source sum = .ok count := by
  rw [bodyOf_eq, bodyParts.eq_def, kind] at translated
  simp only [quantifiedOf, behind] at translated
  obtain ⟨atom, -, rest⟩ := bind_eq_ok_iff.mp translated
  obtain ⟨inside, named⟩ := parsed.of_child? behind
  rcases inside.quantifier named with ⟨mark, -, none⟩ | ⟨apart, -⟩
  · simp [Tree.child?, none] at counts
  · split at rest
    · rename_i mark
      exact absurd mark (apart .optional)
    · rename_i mark
      exact absurd mark (apart .zeroOrMore)
    · rename_i mark
      exact absurd mark (apart .oneOrMore)
    · obtain ⟨found, required, rest⟩ := bind_eq_ok_iff.mp rest
      rw [Tree.required_eq counts] at required
      cases required
      obtain ⟨count, read, same⟩ := bind_eq_ok_iff.mp rest
      cases same
      exact ⟨atom, count, rfl, read⟩

/-- The arguments of a reference are read as the sums that they spell, and its expression binds what
they mean. -/
def ReferenceRead (source : List Char) (tree : Tree) : Prop :=
  ∀ node, bodyOf source tree = .ok node →
    ∃ name bindings, node = .reference name bindings ∧
      List.Forall₂ (fun parameter binding => ∀ sum, parameter.child? "param-sum" = some sum →
        ∃ total, Total.IsSumOf source sum total ∧ total.MeansArgument binding)
          (parametersOf (tree.child? "parameter-list")) bindings

private theorem Parsed.referenceRead (parsed : Parsed source tree)
    (kind : tree.name = "reference") :
    ReferenceRead source tree := by
  intro node translated
  obtain ⟨name, bindings, rfl, all⟩ := exists_arguments kind translated
  refine ⟨name, bindings, rfl, ?_⟩
  have each : ∀ parameter ∈ parametersOf (tree.child? "parameter-list"),
      Parsed source parameter ∧ parameter.name = "parameter" := by
    intro parameter member
    cases listed : tree.child? "parameter-list" with
    | none =>
        rw [listed] at member
        cases member
    | some list =>
        rw [listed] at member
        exact (parsed.of_child? listed).1.of_children member
  refine ((List.forall₂_and_left _ _).mpr ⟨each, all⟩).imp ?_
  rintro parameter binding ⟨⟨inside, named⟩, read⟩ sum found
  obtain ⟨total, spelled, means, -⟩ := inside.argumentRead named sum found
  exact ⟨total, spelled, means binding read⟩

/-- The count behind an atom is read as the sum that it spells, and the expression repeats as often
as that says. -/
def CountRead (source : List Char) (tree : Tree) : Prop :=
  ∀ quantifier sum node, tree.child? "quantifier" = some quantifier →
    quantifier.child? "param-sum" = some sum → bodyOf source tree = .ok node →
      ∃ atom count total, node = .repeated atom count (some count) ∧
        Total.IsSumOf source sum total ∧ total.MeansCount count

private theorem Parsed.countRead (parsed : Parsed source tree) (kind : tree.name = "quantified") :
    CountRead source tree := by
  intro quantifier sum node behind counts translated
  obtain ⟨atom, count, rfl, read⟩ := parsed.exists_count kind behind counts translated
  obtain ⟨inside, named⟩ := (parsed.of_child? behind).1.of_child? counts
  obtain ⟨total, spelled, gathers⟩ := inside.exists_total named
  exact ⟨atom, count, total, rfl, spelled, Total.meansCount gathers read⟩

/-- Parameter expressions mean their values. In every tree that the dialect gives for a text, each
argument and each count that is a sum spells one sum. What it is bound to has the value of that sum
for every caller, and if all numbers of an argument are in range, also with the signs in front of
them, it is rejected exactly if it names `n` or `m` more than once or less than not at all on
balance, or combines a context or a chomping behaviour with another term. -/
theorem parameter_expressions_mean_values {setting : Setting} {text : List Char} {root : Tree}
    (dialect : setting.grammar = grammar)
    (parses : (setting.parseAll "grammar" text).1 = .ok root) :
    ∀ entry ∈ root.preorder 0,
      (entry.2.name = "reference" → ReferenceRead text entry.2) ∧
        (entry.2.name = "parameter" → ArgumentRead text entry.2) ∧
          (entry.2.name = "quantified" → CountRead text entry.2) := by
  intro entry member
  have parsed := parsed_of_parseAll dialect parses entry member
  exact ⟨parsed.referenceRead, parsed.argumentRead, parsed.countRead⟩

/-- A reference with an argument that is a sum, and a count that is one. -/
def sumsText : List Char := "b(n,c) ::= 'x'\na(n,c) ::= b(n + 7-3,c) 'y'{n-1}\n".toList

/-- What the reference stands for. -/
def sumsReference : Node := .reference "b" [.indent true false 4, .context]

/-- What the repeated text stands for. -/
def sumsRepetition : Node :=
  .repeated (.literal "y") (.computed (.indent true false (-1)))
    (some (.computed (.indent true false (-1))))

theorem parameter_expressions_mean_values_indented :
    ∃ root, (Setting.parseAll ⟨grammar, false, 1024⟩ "grammar" sumsText).1 = .ok root ∧
      (∃ entry ∈ root.preorder 0, entry.2.name = "reference" ∧
        bodyOf sumsText entry.2 = .ok sumsReference ∧ ReferenceRead sumsText entry.2) ∧
      (∃ entry ∈ root.preorder 0, entry.2.name = "parameter" ∧
        argumentOf sumsText entry.2 = .ok (.indent true false 4) ∧
          ArgumentRead sumsText entry.2) ∧
      ∃ entry ∈ root.preorder 0, entry.2.name = "quantified" ∧
        bodyOf sumsText entry.2 = .ok sumsRepetition ∧ CountRead sumsText entry.2 := by
  let isReference (entry : ℕ × Tree) : Bool := entry.2.name = "reference" &&
    (bodyOf sumsText entry.2).toOption = some sumsReference
  let isArgument (entry : ℕ × Tree) : Bool := entry.2.name = "parameter" &&
    (argumentOf sumsText entry.2).toOption = some (.indent true false 4)
  let isCount (entry : ℕ × Tree) : Bool := entry.2.name = "quantified" &&
    (bodyOf sumsText entry.2).toOption = some sumsRepetition
  have checked : ((Setting.parseAll ⟨grammar, false, 1024⟩ "grammar" sumsText).1.toOption.any
      fun root => [isReference, isArgument, isCount].all fun is => (root.preorder 0).any is) =
        true := by
    decide +kernel
  obtain ⟨root, parses, all⟩ := exists_of_any checked
  simp only [List.all_cons, List.all_nil, Bool.and_true, Bool.and_eq_true, List.any_eq_true,
    isReference, isArgument, isCount, decide_eq_true_eq] at all
  obtain ⟨⟨first, among, kind, found⟩, ⟨second, member, named, read⟩,
    third, inside, label, counted⟩ := all
  refine ⟨root, parses, ⟨first, among, kind, toOption_eq_some_iff.mp found, ?_⟩,
    ⟨second, member, named, toOption_eq_some_iff.mp read, ?_⟩,
    third, inside, label, toOption_eq_some_iff.mp counted, ?_⟩
  · exact (parameter_expressions_mean_values rfl parses first among).1 kind
  · exact (parameter_expressions_mean_values rfl parses second member).2.1 named
  · exact (parameter_expressions_mean_values rfl parses third inside).2.2 label

/-- The least integer taken away from minus one. -/
def leastTakenAway : Total := ⟨.number (-1), [(true, .number (-2147483648))]⟩

/-- A reference with that argument. -/
def leastText : List Char := "b(n) ::= 'x'\na ::= b(-1--2147483648)\n".toList

private theorem leastTakenAway_spells : leastTakenAway.Spells "-1--2147483648".toList := by
  have first : (Term.number (-1)).Spells ['-', '1'] :=
    Term.Spells.number true (List.all_eq_true.mp rfl)
      (by decide : Numeral.natural? 10 ['1'] = some 1)
  have second : (Term.number (-2147483648)).Spells "-2147483648".toList :=
    Term.Spells.number true (List.all_eq_true.mp rfl)
      (by decide : Numeral.natural? 10 "2147483648".toList = some 2147483648)
  have blank : ∀ char ∈ ([] : List Char), isSpace char = true := by simp
  have more : SpellsMore [(true, .number (-2147483648))] "--2147483648".toList :=
    SpellsMore.cons blank blank second .nil
  exact ⟨_, _, rfl, first, more⟩

/-- That the integers and the partial sums are in range is not enough. The least integer is, but
not with the sign that takes it away, and the argument is rejected though it is supported. -/
theorem leastTakenAway_rejected :
    (∀ value ∈ leastTakenAway.signed.integers, InInt32 value) ∧
      (∀ count, InInt32 (leastTakenAway.signed.addends.take count).sum) ∧
      ¬ leastTakenAway.Unsupported ∧
      ∃ root, (Setting.parseAll ⟨grammar, false, 1024⟩ "grammar" leastText).1 = .ok root ∧
        ∃ entry ∈ root.preorder 0, entry.2.name = "parameter" ∧
          ∃ sum, entry.2.child? "param-sum" = some sum ∧
            leastTakenAway.SpelledBy leastText sum ∧
            ∃ error, argumentOf leastText entry.2 = .error error := by
  refine ⟨?_, ?_, ?_, ?_⟩
  · have written : leastTakenAway.signed.integers = [-1, -2147483648] := rfl
    simp [written, InInt32]
  · intro count
    rcases count with _ | _ | count
    · exact ⟨by decide, by decide⟩
    · exact ⟨by decide, by decide⟩
    · simp [leastTakenAway, Total.signed, InInt32]
  · simp [leastTakenAway, Total.Unsupported, Total.signed, Term.count, Signed.Mentions]
  · let isLeast (entry : ℕ × Tree) : Bool := entry.2.name = "parameter" &&
      ((entry.2.child? "param-sum").any fun sum =>
        slice? leastText sum.start sum.stop = some "-1--2147483648".toList) &&
      (argumentOf leastText entry.2).toOption.isNone
    have checked : ((Setting.parseAll ⟨grammar, false, 1024⟩ "grammar" leastText).1.toOption.any
        fun root => (root.preorder 0).any isLeast) = true := by
      decide +kernel
    obtain ⟨root, parses, some⟩ := exists_of_any checked
    obtain ⟨entry, member, holds⟩ := List.any_eq_true.mp some
    simp only [isLeast, Bool.and_eq_true, decide_eq_true_eq, Option.any_eq_true,
      Option.isNone_iff_eq_none, toOption_eq_none_iff] at holds
    obtain ⟨⟨kind, sum, found, written⟩, rejected⟩ := holds
    exact ⟨root, parses, entry, member, kind, sum, found,
      ⟨_, written, leastTakenAway_spells⟩, rejected⟩

end Dialect

end Bnf

end ParametricGrammar
