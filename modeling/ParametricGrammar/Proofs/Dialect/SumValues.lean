import Mathlib.Algebra.BigOperators.Group.List.Basic
import Mathlib.Tactic.Ring
import ParametricGrammar.Proofs.Dialect.SumSpelling
/-!
# Values of sums

A sum has a value once its parameters have one. It is gathered into coefficients, and what these are
bound to computes that value, if the parameters take part at most once each and a context or a
chomping behaviour stands alone. No other sum has a binding.
-/

namespace ParametricGrammar

namespace Bnf

namespace Dialect

/-! ### Terms with signs -/

/-- An integer of 32 bits. -/
def InInt32 (value : Int) : Prop := -2147483648 ≤ value ∧ value ≤ 2147483647

namespace Term

/-- The integer that a term is, if it is one. -/
def number? : Term → Option Int
  | formal _ => none
  | number value => some value

/-- How often a term is a parameter. -/
def count (name : Formal) : Term → Int
  | formal other => if other = name then 1 else 0
  | number _ => 0

/-- The value of a term for a caller. A context and a chomping behaviour have none. -/
def value (caller : Parameters) : Term → Int
  | formal .n => (caller.n.getD 0).toInt
  | formal .m => (caller.m.getD 0).toInt
  | formal _ => 0
  | number value => value

end Term

/-- Terms with the signs in front of them. -/
abbrev Signed := List (Int × Term)

namespace Signed

variable (terms : Signed)

/-- The integers as they are written. -/
def integers : List Int := terms.filterMap fun term => term.2.number?

/-- The integers with the signs in front of them. -/
def addends : List Int := terms.filterMap fun term => term.2.number?.map (term.1 * ·)

/-- The net coefficient of a parameter. -/
def net (name : Formal) : Int := (terms.map fun term => term.1 * term.2.count name).sum

/-- The value for a caller. -/
def value (caller : Parameters) : Int := (terms.map fun term => term.1 * term.2.value caller).sum

/-- Whether a parameter is mentioned. -/
def Mentions (name : Formal) : Prop := ∃ sign, (sign, Term.formal name) ∈ terms

/-- The number of terms that are a context or a chomping behaviour. -/
def enumerations : ℕ :=
  terms.countP fun term => match term.2 with
    | .formal .c | .formal .t => true
    | _ => false

/-- A sum with all terms added to it, unless a number leaves the range of 32 bits. -/
def add? (sum : Sum) : Option Sum :=
  terms.foldlM (fun sum term => term.2.add? sum term.1) sum

end Signed

namespace Signed

variable (sign : Int) (name other : Formal) (value : Int) (terms : Signed) (caller : Parameters)

@[simp] theorem net_nil : net [] name = 0 := rfl

@[simp] theorem net_cons (term : Int × Term) :
    net (term :: terms) name = term.1 * term.2.count name + net terms name := by
  simp [net]

@[simp] theorem value_nil : Signed.value [] caller = 0 := rfl

@[simp] theorem value_cons (term : Int × Term) : Signed.value (term :: terms) caller =
    term.1 * term.2.value caller + Signed.value terms caller := by
  simp [Signed.value]

@[simp] theorem addends_nil : addends [] = [] := rfl

@[simp] theorem addends_formal : addends ((sign, .formal name) :: terms) = addends terms := rfl

@[simp] theorem addends_number :
    addends ((sign, .number value) :: terms) = (sign * value) :: addends terms := rfl

@[simp] theorem integers_formal : integers ((sign, .formal name) :: terms) = integers terms := rfl

@[simp] theorem integers_number :
    integers ((sign, .number value) :: terms) = value :: integers terms := rfl

end Signed

/-- The terms of a sum with their signs. -/
def Total.signed (total : Total) : Signed :=
  (1, total.first) :: total.more.map fun addend => (if addend.1 then -1 else 1, addend.2)

private theorem Total.sum?_eq (total : Total) : total.sum? = total.signed.add? {} := by
  rw [Total.sum?, Total.signed, Signed.add?, List.foldlM_cons]
  unfold addAll?
  simp only [List.foldlM_map]
  rfl

/-! ### Coefficients -/

/-- The coefficient of a parameter. -/
def coefficient (sum : Sum) : Formal → Int
  | .n => sum.n
  | .m => sum.m
  | .c => sum.c
  | .t => sum.t

/-- What a sum becomes when terms are added to it. -/
structure Gathers (terms : Signed) (sum next : Sum) : Prop where
  net (name : Formal) : coefficient next name = coefficient sum name + terms.net name
  enumerations : next.enumerations = sum.enumerations + terms.enumerations
  length : next.terms = sum.terms + terms.length
  constant : next.constant = sum.constant + terms.addends.sum
  range : InInt32 sum.constant → InInt32 next.constant

private theorem inInt32_iff {value : Int} :
    (Numeral.int32? value).isSome = true ↔ InInt32 value := by
  unfold Numeral.int32? InInt32
  split <;> simp_all

/-- A number is added if it fits with its sign and the sum does. -/
theorem add?_number {sum next : Sum} {sign value : Int} :
    (Term.number value).add? sum sign = some next ↔
      InInt32 value ∧ InInt32 (sign * value) ∧ InInt32 (sum.constant + sign * value) ∧
        next = { sum with constant := sum.constant + sign * value, terms := sum.terms + 1 } := by
  rw [mul_comm sign value, Term.add?, Sum.addNumber?, ← inInt32_iff, ← inInt32_iff, ← inInt32_iff]
  cases Numeral.int32? value <;> cases Numeral.int32? (value * sign) <;>
    cases Numeral.int32? (sum.constant + value * sign) <;> simp [eq_comm]

private theorem gathers_nil (sum : Sum) : Gathers [] sum sum := by
  constructor <;> simp [Signed.enumerations]

private theorem Gathers.cons {term : Term} {terms : Signed} {sum middle next : Sum} {sign : Int}
    (added : term.add? sum sign = some middle) (gathers : Gathers terms middle next) :
    Gathers ((sign, term) :: terms) sum next := by
  cases term with
  | formal name =>
      obtain rfl : sum.addFormal sign name = middle := Option.some.inj added
      refine ⟨fun other => ?_, ?_, ?_, ?_, fun range => gathers.range ?_⟩
      · rw [gathers.net]
        cases name <;> cases other <;>
          simp [Sum.addFormal, coefficient, Term.count, add_assoc]
      · rw [gathers.enumerations]
        cases name <;> simp [Sum.addFormal, Signed.enumerations] <;> omega
      · rw [gathers.length]
        cases name <;> simp [Sum.addFormal] <;> omega
      · rw [gathers.constant]
        cases name <;> simp [Sum.addFormal]
      · cases name <;> exact range
  | number value =>
      obtain ⟨-, -, range, rfl⟩ := add?_number.mp added
      refine ⟨fun other => ?_, ?_, ?_, ?_, fun _ => gathers.range range⟩
      · rw [gathers.net]
        cases other <;> simp [coefficient, Term.count]
      · rw [gathers.enumerations]
        simp [Signed.enumerations]
      · rw [gathers.length]
        simp
        omega
      · rw [gathers.constant]
        simp [add_assoc]

/-- Adding terms gathers them. -/
theorem gathers_of_add? {terms : Signed} {sum next : Sum} (added : terms.add? sum = some next) :
    Gathers terms sum next := by
  induction terms generalizing sum with
  | nil =>
      obtain rfl : sum = next := Option.some.inj added
      exact gathers_nil sum
  | cons term terms induction =>
      rw [Signed.add?, List.foldlM_cons] at added
      obtain ⟨middle, first, rest⟩ := Option.bind_eq_some_iff.mp added
      exact (induction rest).cons first

/-- Terms can be added if all integers fit, with and without their signs, and all partial sums. -/
theorem exists_add? {terms : Signed} {sum : Sum}
    (integers : ∀ value ∈ terms.integers, InInt32 value)
    (signed : ∀ value ∈ terms.addends, InInt32 value)
    (partials : ∀ count, InInt32 (sum.constant + (terms.addends.take count).sum)) :
    ∃ next, terms.add? sum = some next := by
  induction terms generalizing sum with
  | nil => exact ⟨sum, rfl⟩
  | cons head terms induction =>
      obtain ⟨sign, term⟩ := head
      obtain ⟨middle, added, later⟩ : ∃ middle, term.add? sum sign = some middle ∧
          ∃ next, Signed.add? terms middle = some next := by
        cases term with
        | formal name =>
            refine ⟨_, rfl, induction integers signed fun count => ?_⟩
            have same : (sum.addFormal sign name).constant = sum.constant := by cases name <;> rfl
            rw [same]
            exact partials count
        | number value =>
            rw [Signed.integers_number, List.forall_mem_cons] at integers
            rw [Signed.addends_number, List.forall_mem_cons] at signed
            rw [Signed.addends_number] at partials
            have fits : InInt32 (sum.constant + sign * value) := by simpa using partials 1
            refine ⟨_, add?_number.mpr ⟨integers.1, signed.1, fits, rfl⟩,
              induction integers.2 signed.2 fun count => ?_⟩
            simpa [add_assoc] using partials (count + 1)
      obtain ⟨next, rest⟩ := later
      exact ⟨next, by rw [Signed.add?, List.foldlM_cons, added]; exact rest⟩

/-! ### Bindings -/

section

variable {terms : Signed} {sum : Sum} {caller : Parameters} {binding : Binding}

/-- No term is a context or a chomping behaviour. -/
theorem enumerations_eq_zero_iff :
    terms.enumerations = 0 ↔ ¬ terms.Mentions .c ∧ ¬ terms.Mentions .t := by
  rw [Signed.enumerations, List.countP_eq_zero]
  constructor
  · intro none
    exact ⟨fun ⟨sign, member⟩ => none _ member rfl, fun ⟨sign, member⟩ => none _ member rfl⟩
  · rintro ⟨noContext, noChomping⟩ ⟨sign, term⟩ member
    rcases term with name | value
    · cases name with
      | c => exact absurd ⟨sign, member⟩ noContext
      | t => exact absurd ⟨sign, member⟩ noChomping
      | n | m => simp
    · simp

private theorem net_eq_zero {name : Formal} (absent : ¬ terms.Mentions name) :
    terms.net name = 0 := by
  refine List.sum_eq_zero fun number member => ?_
  obtain ⟨⟨sign, term⟩, among, rfl⟩ := List.mem_map.mp member
  rcases term with other | value
  · have apart : other ≠ name := by
      rintro rfl
      exact absent ⟨sign, among⟩
    simp [Term.count, apart]
  · simp [Term.count]

/-- The value of a sum is what its coefficients say. -/
theorem value_eq (terms : Signed) (caller : Parameters) : terms.value caller =
    terms.net .n * (caller.n.getD 0).toInt + terms.net .m * (caller.m.getD 0).toInt +
      terms.addends.sum := by
  induction terms with
  | nil => simp
  | cons head terms induction =>
      obtain ⟨sign, term⟩ := head
      rcases term with name | value
      · cases name <;> simp [Term.value, Term.count, induction] <;> ring
      · simp [Term.value, Term.count, induction]
        ring

private theorem formal?_ne (noContext : sum.c = 0) (noChomping : sum.t = 0) :
    sum.formal? ≠ some .c ∧ sum.formal? ≠ some .t := by
  unfold Sum.formal?
  split_ifs <;> simp_all

private theorem binding?_of_apart (context : sum.formal? ≠ some .c)
    (chomping : sum.formal? ≠ some .t) :
    sum.binding? = if sum.enumerations > 0 then none
      else if (sum.n = 0 ∨ sum.n = 1) ∧ (sum.m = 0 ∨ sum.m = 1) then
        if sum.isConstant then some (.literal (.int (Int32.ofInt sum.constant)))
        else some (.indent (sum.n = 1) (sum.m = 1) (Int32.ofInt sum.constant))
      else none := by
  unfold Sum.binding?
  split
  · contradiction
  · contradiction
  · rfl

/-- The parameters that a sum mentions are bound. -/
def Signed.Bound (terms : Signed) (caller : Parameters) : Prop :=
  ∀ name, terms.Mentions name → (caller.get? name).isSome = true

private theorem isSome_of_net_eq_one {name : Formal} (bound : terms.Bound caller)
    (one : terms.net name = 1) : (caller.get? name).isSome = true := by
  refine bound name ?_
  by_contra absent
  rw [net_eq_zero absent] at one
  cases one

/-- What a binding takes from `n` or from `m` is what the terms take from it. -/
theorem require_eq {name : Formal} {given : Option Int32} {required : Except ParameterError Int32}
    (named : caller.get? name = given.map .int)
    (requires : ∀ value, given = some value → required = .ok value) (bound : terms.Bound caller)
    (few : terms.net name = 0 ∨ terms.net name = 1) :
    (if terms.net name = 1 then required else .ok 0) =
      .ok (Int32.ofInt (terms.net name * (given.getD 0).toInt)) := by
  rcases few with zero | one
  · simp [zero]
  · obtain ⟨value, binds⟩ : ∃ value, given = some value := by
      simpa [named, Option.isSome_iff_exists] using isSome_of_net_eq_one bound one
    simp [one, binds, requires value binds]

/-- An indentation adds what is taken from the parameters that take part. -/
theorem resolve_indent {n m : Bool} {offset fromN fromM : Int32}
    (takesN : (if n then caller.requireN else .ok 0) = .ok fromN)
    (takesM : (if m then caller.requireM else .ok 0) = .ok fromM) :
    (Binding.indent n m offset).resolve caller = .ok (.int (offset + fromN + fromM)) := by
  cases n <;> cases m <;> simp_all [Binding.resolve, bind, Except.bind, pure, Except.pure]

/-- The binding of a sum of integers, `n` and `m` computes its value in 32 bits. -/
theorem resolve_eq (gathers : Gathers terms {} sum) (numeric : terms.enumerations = 0)
    (found : sum.binding? = some binding) (bound : terms.Bound caller) :
    binding.resolve caller = .ok (.int (Int32.ofInt (terms.value caller))) := by
  obtain ⟨noContext, noChomping⟩ := enumerations_eq_zero_iff.mp numeric
  have c : sum.c = 0 := (gathers.net .c).trans (by simp [net_eq_zero noContext, coefficient])
  have t : sum.t = 0 := (gathers.net .t).trans (by simp [net_eq_zero noChomping, coefficient])
  have n : sum.n = terms.net .n := (gathers.net .n).trans (zero_add _)
  have m : sum.m = terms.net .m := (gathers.net .m).trans (zero_add _)
  have constant : sum.constant = terms.addends.sum := gathers.constant.trans (zero_add _)
  have none : sum.enumerations = 0 := gathers.enumerations.trans (by simp [numeric])
  obtain ⟨context, chomping⟩ := formal?_ne c t
  rw [binding?_of_apart context chomping] at found
  simp only [none, gt_iff_lt, lt_self_iff_false, if_false, Sum.isConstant, n, m, constant] at found
  rw [value_eq]
  split at found
  · rename_i once
    obtain ⟨countN, countM⟩ := once
    split at found
    · rename_i fixed
      cases found
      simp only [Bool.and_eq_true, decide_eq_true_eq] at fixed
      simp [Binding.resolve, fixed.1.1, fixed.1.2]
    · cases found
      have takesN : (if terms.net .n = 1 then caller.requireN else .ok 0) = _ :=
        require_eq rfl (fun value binds => by rw [Parameters.requireN, binds]) bound countN
      have takesM : (if terms.net .m = 1 then caller.requireM else .ok 0) = _ :=
        require_eq rfl (fun value binds => by rw [Parameters.requireM, binds]) bound countM
      rw [resolve_indent (by simpa only [decide_eq_true_eq] using takesN)
        (by simpa only [decide_eq_true_eq] using takesM), ← Int32.ofInt_add, ← Int32.ofInt_add]
      congr 3
      ring
  · cases found

end

/-! ### Sums without a binding -/

namespace Total

variable {total : Total} {sum : Sum}

/-- A sum names `n` or `m` more than once or less than not at all, or it combines a context or a
chomping behaviour with another term. -/
def Unsupported (total : Total) : Prop :=
  (total.signed.net .n ≠ 0 ∧ total.signed.net .n ≠ 1) ∨
    (total.signed.net .m ≠ 0 ∧ total.signed.net .m ≠ 1) ∨
    ((total.signed.Mentions .c ∨ total.signed.Mentions .t) ∧ total.more ≠ [])

theorem gathers (found : total.sum? = some sum) : Gathers total.signed {} sum :=
  gathers_of_add? (total.sum?_eq ▸ found)

/-- A term alone that is a context or a chomping behaviour. -/
theorem eq_alone (only : total.more = [])
    (mentions : total.signed.Mentions .c ∨ total.signed.Mentions .t) :
    total = ⟨.formal .c, []⟩ ∨ total = ⟨.formal .t, []⟩ := by
  obtain ⟨first, more⟩ := total
  obtain rfl : more = [] := only
  refine mentions.imp ?_ ?_
  all_goals
    rintro ⟨sign, member⟩
    obtain ⟨-, rfl⟩ : sign = 1 ∧ Term.formal _ = first := by simpa [signed] using member
    rfl

/-- A sum has no binding exactly if it is unsupported. -/
theorem binding?_eq_none_iff (found : total.sum? = some sum) :
    sum.binding? = none ↔ total.Unsupported := by
  have gathered := gathers found
  have n : sum.n = total.signed.net .n := (gathered.net .n).trans (zero_add _)
  have m : sum.m = total.signed.net .m := (gathered.net .m).trans (zero_add _)
  have count : sum.enumerations = total.signed.enumerations :=
    gathered.enumerations.trans (zero_add _)
  by_cases numeric : total.signed.enumerations = 0
  · obtain ⟨noContext, noChomping⟩ := enumerations_eq_zero_iff.mp numeric
    have c : sum.c = 0 := (gathered.net .c).trans (by simp [net_eq_zero noContext, coefficient])
    have t : sum.t = 0 := (gathered.net .t).trans (by simp [net_eq_zero noChomping, coefficient])
    obtain ⟨context, chomping⟩ := formal?_ne c t
    rw [binding?_of_apart context chomping, count, numeric, n, m, if_neg (lt_irrefl 0)]
    simp only [Unsupported, noContext, noChomping, or_self, false_and, or_false]
    split
    · rename_i few
      refine iff_of_false (by split <;> simp) ?_
      rintro (⟨zero, one⟩ | ⟨zero, one⟩)
      · exact few.1.elim zero one
      · exact few.2.elim zero one
    · rename_i many
      exact iff_of_true rfl ((not_and_or.mp many).imp not_or.mp not_or.mp)
  · have mentions : total.signed.Mentions .c ∨ total.signed.Mentions .t := by
      by_contra none
      exact numeric (enumerations_eq_zero_iff.mpr (not_or.mp none))
    by_cases only : total.more = []
    · obtain rfl | rfl := eq_alone only mentions
      all_goals
        cases found
        exact iff_of_false (by decide) (by simp [Unsupported, signed, Term.count])
    · have several : sum.terms ≠ 1 := by
        rw [gathered.length]
        simpa [signed] using only
      have formal : sum.formal? = none := if_pos several
      rw [binding?_of_apart (by simp [formal]) (by simp [formal]), count,
        if_pos (Nat.pos_of_ne_zero numeric)]
      simp [Unsupported, mentions, only]

/-- All integers of a sum fit, with and without the signs in front of them, and all partial sums. -/
structure Fits (total : Total) : Prop where
  integers : ∀ value ∈ total.signed.integers, InInt32 value
  addends : ∀ value ∈ total.signed.addends, InInt32 value
  partials : ∀ count, InInt32 (total.signed.addends.take count).sum

theorem Fits.exists_sum? (fits : total.Fits) : ∃ sum, total.sum? = some sum := by
  rw [sum?_eq]
  exact exists_add? fits.integers fits.addends (by simpa using fits.partials)

theorem Fits.sum?_eq (fits : total.Fits) : total.sum? = some total.sum := by
  obtain ⟨sum, found⟩ := fits.exists_sum?
  rw [found, sum_of_sum? found]

end Total

end Dialect

end Bnf

end ParametricGrammar
