import ParametricGrammar.Bnf.Printer
import ParametricGrammar.Proofs.Dialect.Readable
import ParametricGrammar.Proofs.Dialect.SumValues
/-!
# Printed arguments

Arguments, counts and heads of productions are printed as parameters that are translated to the same
arguments, counts and heads. The least offset behind `n` is the only exception: it is printed as a
minus sign and the magnitude, which is out of range on its own, so it is not translated at all.
-/

namespace ParametricGrammar

namespace Bnf

namespace Dialect

variable {source : List Char} {tree : Tree}

/-! ### Translation -/

namespace Parameter

/-- The literal that a parameter is, if it is a context or a chomping behaviour. -/
def literal? : Parameter → Option Value
  | context value => some (.context value)
  | chomping value => some (.chomping value)
  | inFlow | sum _ => none

/-- The argument that a parameter computes, if there is one. -/
def binding? : Parameter → Option Binding
  | context value => some (.literal (.context value))
  | chomping value => some (.literal (.chomping value))
  | inFlow => some .inFlow
  | sum total => total.sum?.bind Sum.binding?

/-- The formal that a sum declares in a head, with its literal if it is one. -/
def declaredBy? (sum : Sum) : Option (Formal × Option Value) :=
  match sum.formal? with
  | some formal => some (formal, none)
  | none => if sum.isConstant then some (.n, some (.int (Int32.ofInt sum.constant))) else none

/-- The formal that a parameter declares in a head, with its literal if it is one. -/
def declared? : Parameter → Option (Formal × Option Value)
  | context value => some (.c, some (.context value))
  | chomping value => some (.t, some (.chomping value))
  | inFlow => none
  | sum total => total.sum?.bind declaredBy?

end Parameter

private theorem Sole.child? {kind : String} {stands : Stands}
    (sole : Sole kind stands source tree) :
    ∃ part, (∀ name, tree.child? name = if kind = name then some part else none) ∧
      stands source part := by
  obtain ⟨part, only, named, holds⟩ := sole
  refine ⟨part, fun name => ?_, holds⟩
  by_cases same : kind = name <;> simp [Tree.child?, only, named, same]

/-- The only part of a parameter is found by its kind alone. -/
theorem Parameter.Stands.child? {parameter : Parameter} (stands : parameter.Stands source tree) :
    ∃ part, (∀ name, tree.child? name = if parameter.kind = name then some part else none) ∧
      parameter.Inner source part :=
  Sole.child? stands

private theorem literalOf_eq {parameter : Parameter} (stands : parameter.Stands source tree) :
    literalOf source tree = .ok parameter.literal? := by
  obtain ⟨part, found, inner⟩ := stands.child?
  cases parameter with
  | context value =>
      simp [literalOf, found, Parameter.kind, inner.text, Context.ofText?_text, Parameter.literal?]
  | chomping value =>
      simp [literalOf, found, Parameter.kind, inner.text, Chomping.ofText?_text, Parameter.literal?]
  | inFlow => simp [literalOf, found, Parameter.kind, Parameter.literal?]
  | sum total => simp [literalOf, found, Parameter.kind, Parameter.literal?]

/-- The tree of a parameter is translated to the argument that the parameter computes. -/
theorem Parameter.Stands.toOption_argumentOf {parameter : Parameter}
    (stands : parameter.Stands source tree) :
    (argumentOf source tree).toOption = parameter.binding? := by
  obtain ⟨part, found, inner⟩ := stands.child?
  rw [argumentOf, literalOf_eq stands]
  cases parameter with
  | context value | chomping value => rfl
  | inFlow =>
      obtain ⟨bare, named, written⟩ := inner
      have isC : bare.text source = "c" := written
      simp only [Parameter.literal?, found, Parameter.kind, bind, Except.bind, if_true,
        Tree.required, named, isC]
      rfl
  | sum total =>
      have gathers : (sumOf source part).toOption = total.sum? := inner
      rw [Parameter.binding?, ← gathers]
      simp only [Parameter.literal?, found, Parameter.kind, bind, Except.bind, String.reduceEq,
        if_true, if_false, Tree.required]
      cases sumOf source part with
      | error error => rfl
      | ok sum =>
          dsimp only [Except.toOption, Option.bind_some]
          cases sum.binding? <;> rfl

/-- The tree of a parameter in a head is translated to the formal that the parameter declares. -/
theorem Parameter.Stands.toOption_declared {parameter : Parameter}
    (stands : parameter.Stands source tree) :
    (Head.declared source tree).toOption = parameter.declared? := by
  obtain ⟨part, found, inner⟩ := stands.child?
  rw [Head.declared, literalOf_eq stands]
  cases parameter with
  | context value | chomping value => rfl
  | inFlow =>
      simp only [Parameter.literal?, found, Parameter.kind, bind, Except.bind, String.reduceEq,
        if_false]
      rfl
  | sum total =>
      have gathers : (sumOf source part).toOption = total.sum? := inner
      rw [Parameter.declared?, ← gathers]
      simp only [Parameter.literal?, found, Parameter.kind, bind, Except.bind, if_true]
      cases sumOf source part with
      | error error => rfl
      | ok sum =>
          dsimp only [Except.toOption, Option.bind_some, Parameter.declaredBy?]
          cases sum.formal? with
          | some formal => rfl
          | none => cases sum.isConstant <;> rfl

/-- The count that gathered coefficients are, if they are one. -/
def countOf? (sum : Sum) : Option Bound :=
  if sum.isConstant then
    if 0 ≤ sum.constant then some (.fixed (UInt32.ofNat sum.constant.toNat)) else none
  else
    match sum.binding? with
    | some (.indent n m offset) => some (.computed (.indent n m offset))
    | _ => none

/-- The count that a sum is, if it is one. -/
def Total.bound? (total : Total) : Option Bound := total.sum?.bind countOf?

/-- The tree of a count is translated to the bound that the count is. -/
theorem Total.Stands.toOption_boundOf {total : Total} (stands : total.Stands source tree) :
    (boundOf source tree).toOption = total.bound? := by
  have gathers : (sumOf source tree).toOption = total.sum? := stands
  rw [boundOf, Total.bound?, ← gathers]
  cases sumOf source tree with
  | error error => rfl
  | ok sum =>
      change Except.toOption (if sum.isConstant then _ else _) = countOf? sum
      unfold countOf?
      split
      · split <;> rfl
      · rcases sum.binding? with _ | _ | _ | _ | _ | _ <;> rfl

/-! ### Texts with separators -/

/-- Texts with a separator between neighbours. -/
def together (separator : List Char) : List (List Char) → List Char
  | [] => []
  | first :: more => first ++ more.flatMap (separator ++ ·)

private theorem together_append {separator : List Char} {left right : List (List Char)}
    (someLeft : left ≠ []) (someRight : right ≠ []) : together separator (left ++ right) =
      together separator left ++ (separator ++ together separator right) := by
  cases left with
  | nil => exact absurd rfl someLeft
  | cons first left =>
      cases right with
      | nil => exact absurd rfl someRight
      | cons second right => simp [together]

theorem together_flatten {separator : List Char} {rows : List (List (List Char))}
    (some : ∀ row ∈ rows, row ≠ []) :
    together separator (rows.map (together separator)) = together separator rows.flatten := by
  induction rows with
  | nil => rfl
  | cons row rows induction =>
      rw [List.forall_mem_cons] at some
      cases rows with
      | nil => simp [together]
      | cons second rows =>
          have later : (second :: rows).flatten ≠ [] := by
            simpa using fun none => absurd none (some.2 second List.mem_cons_self)
          rw [List.flatten_cons, together_append some.1 later, ← induction some.2]
          simp [together]

theorem toList_joined (separator : String) (texts : List String) :
    (joined separator texts).toList = together separator.toList (texts.map String.toList) := by
  fun_induction joined separator texts with
  | case1 => rfl
  | case2 text => simp [together]
  | case3 text rest more induction =>
      cases rest with
      | nil => exact absurd rfl more
      | cons second rest => simp [induction, together]

/-- A list of parameters is written as the list of their texts. -/
theorem chars_parameterList {items : List Item} {texts : List String}
    (same : items.map Item.chars = texts.map String.toList) :
    optionalChars (parameterList items) = (parenthesised texts).toList := by
  cases items with
  | nil =>
      obtain rfl : texts = [] := by simpa using same.symm
      rfl
  | cons first more =>
      cases texts with
      | nil => cases same
      | cons text texts =>
          obtain ⟨head, tail⟩ := List.cons.inj same
          have behind : written [','] more =
              (texts.map String.toList).flatMap ([','] ++ ·) := by
            rw [← tail, written, List.flatMap_map]
          have chars : (joined "," (text :: texts)).toList = first.chars ++ written [','] more := by
            rw [toList_joined, behind, head]
            rfl
          simp [parameterList, listItem, optionalChars, parenthesised, chars]

/-! ### Printing -/

/-- An offset as a further term of a sum. -/
def offsetTerms (offset : Int32) : List (Bool × Term) :=
  if offset = 0 then [] else [(offset < 0, .number offset.toInt.natAbs)]

/-- The sum that an indentation is printed as. -/
def indentTotal (n m : Bool) (offset : Int32) : Total :=
  if n then ⟨.formal .n, offsetTerms offset ++ if m then [(false, .formal .m)] else []⟩
  else if offset = 0 then ⟨if m then .formal .m else .number 0, []⟩
  else ⟨.number offset.toInt, if m then [(false, .formal .m)] else []⟩

end Dialect

end Bnf

open Bnf.Dialect

/-- The parameter that an argument is printed as. -/
def Binding.parameter : Binding → Parameter
  | literal (.int value) => .sum ⟨.number value.toInt, []⟩
  | literal (.context value) => .context value
  | literal (.chomping value) => .chomping value
  | context => .sum ⟨.formal .c, []⟩
  | chomping => .sum ⟨.formal .t, []⟩
  | indent n m offset => .sum (indentTotal n m offset)
  | inFlow => .inFlow

namespace Bnf

namespace Dialect

/-- A sign with what is behind it is the number. -/
theorem natAbs_mul_sign (offset : Int32) :
    (offset.toInt.natAbs : Int) * (if offset < 0 then -1 else 1) = offset.toInt := by
  split <;> rename_i sign <;> rw [Int32.lt_iff_toInt_lt] at sign <;> simp at sign <;> omega

private theorem signed_ne_empty (value : Int) : Numeral.signed value ≠ "" := by
  obtain ⟨char, more, same, -⟩ := Numeral.exists_head_signed value
  intro empty
  rw [empty] at same
  cases same

private theorem addends_offsetTerms {offset : Int32} (some : offset ≠ 0) :
    addends (offsetTerms offset) = (Numeral.explicitlySigned offset.toInt).toList := by
  rw [offsetTerms, if_neg some, Numeral.explicitlySigned]
  by_cases negative : offset < 0
  · have below : offset.toInt < 0 := by simpa [Int32.lt_iff_toInt_lt] using negative
    have positive : ¬ (offset.toInt.natAbs : Int) < 0 := by omega
    simp only [addends, List.flatMap_cons, List.flatMap_nil, Term.chars, negative, below, if_true,
      signChar, Numeral.toList_signed, decide_true, if_neg positive, Int.natAbs_natCast,
      List.nil_append, List.append_nil, List.singleton_append]
  · have above : ¬ offset.toInt < 0 := by simpa [Int32.lt_iff_toInt_lt] using negative
    have same : (offset.toInt.natAbs : Int) = offset.toInt := by omega
    simp only [addends, List.flatMap_cons, List.flatMap_nil, Term.chars, negative, above, if_false,
      signChar, same]
    simp

private theorem chars_indentTotal (n m : Bool) (offset : Int32) :
    (indentTotal n m offset).chars = (Binding.indent n m offset).text.toList := by
  have first : Formal.n.text.toList = ['n'] := rfl
  have last : addends [(false, .formal .m)] = ['+', 'm'] := rfl
  by_cases zero : offset = 0
  · subst zero
    cases n <;> cases m <;> rfl
  · cases n with
    | false =>
        have shifted := signed_ne_empty offset.toInt
        have none : addends [] = [] := rfl
        cases m <;> simp [indentTotal, Binding.text, zero, shifted, Total.chars, Term.chars, last,
          none]
    | true =>
        cases m <;> simp [indentTotal, Binding.text, zero, Total.chars, Term.chars, first, last,
          addends_append, addends_offsetTerms zero]

/-- A parameter is written as the argument that it is printed for. -/
theorem Binding.chars_parameter (binding : Binding) :
    binding.parameter.chars = binding.text.toList := by
  match binding with
  | .literal (.int value) => exact List.append_nil _
  | .literal (.context _) | .literal (.chomping _) => rfl
  | .context | .chomping | .inFlow => rfl
  | .indent n m offset => exact chars_indentTotal n m offset

private theorem addAll_offsetTerms {offset : Int32} (some : offset ≠ 0) (sum : Sum) :
    addAll (offsetTerms offset) sum =
      { sum with constant := sum.constant + offset.toInt, terms := sum.terms + 1 } := by
  rw [offsetTerms, if_neg some]
  simp only [addAll, List.foldl_cons, List.foldl_nil, Term.add, decide_eq_true_eq,
    natAbs_mul_sign]

private theorem addAll_append (left right : List (Bool × Term)) (sum : Sum) :
    addAll (left ++ right) sum = addAll right (addAll left sum) := List.foldl_append

/-! ### Numbers in range -/

private theorem inInt32_toInt (value : Int32) : InInt32 value.toInt :=
  ⟨value.minValue_le_toInt, value.toInt_le⟩

/-- The magnitude of a number is in range unless the number is the least one. -/
theorem inInt32_natAbs {value : Int32} (more : value ≠ -2147483648) :
    InInt32 value.toInt.natAbs := by
  have range := inInt32_toInt value
  have apart : value.toInt ≠ -2147483648 := fun same => more (Int32.toInt_inj.mp same)
  unfold InInt32 at range ⊢
  omega

/-- A sum with at most one number fits if that does, with and without its sign. -/
theorem Total.fits_of_few {total : Total} (few : total.signed.addends.length ≤ 1)
    (integers : ∀ value ∈ total.signed.integers, InInt32 value)
    (addends : ∀ value ∈ total.signed.addends, InInt32 value) : total.Fits := by
  refine ⟨integers, addends, fun count => ?_⟩
  have zero : InInt32 0 := ⟨by decide, by decide⟩
  generalize total.signed.addends = values at few addends
  match values, few with
  | [], _ => simpa using zero
  | [value], _ =>
      cases count with
      | zero => exact zero
      | succ count => simpa using addends value List.mem_cons_self

/-- The only number of an indentation is its offset, behind its sign where `n` is in front. -/
theorem numbers_indentTotal (n m : Bool) (offset : Int32) :
    (∀ value ∈ (indentTotal n m offset).signed.addends, value = offset.toInt) ∧
      (indentTotal n m offset).signed.addends.length ≤ 1 ∧
        ∀ value ∈ (indentTotal n m offset).signed.integers,
          value = if n then (offset.toInt.natAbs : Int) else offset.toInt := by
  by_cases zero : offset = 0
  · subst zero
    cases n <;> cases m <;> decide
  · have sign : (if offset < 0 then -(offset.toInt.natAbs : Int) else offset.toInt.natAbs) =
        offset.toInt := by
      simpa using natAbs_mul_sign offset
    simp only [indentTotal, offsetTerms, if_neg zero]
    generalize (offset.toInt.natAbs : Int) = magnitude at sign ⊢
    cases n <;> cases m <;>
      simp [Total.signed, Signed.addends, Signed.integers, Term.number?, sign]

/-- An indentation fits unless its offset is the least number behind `n`. -/
theorem fits_indentTotal {n m : Bool} {offset : Int32}
    (more : n = true → offset ≠ -2147483648) : (indentTotal n m offset).Fits := by
  obtain ⟨addends, few, integers⟩ := numbers_indentTotal n m offset
  refine Total.fits_of_few few (fun value member => ?_) fun value member => ?_
  · rw [integers value member]
    split
    · exact inInt32_natAbs (more ‹_›)
    · exact inInt32_toInt offset
  · rw [addends value member]
    exact inInt32_toInt offset

/-- A number fits on its own. -/
theorem fits_number {value : Int} (range : InInt32 value) : Total.Fits ⟨.number value, []⟩ :=
  Total.fits_of_few (by simp [Total.signed, Signed.addends, Term.number?])
    (by simpa [Total.signed, Signed.integers, Term.number?] using range)
    (by simpa [Total.signed, Signed.addends, Term.number?] using range)

/-! ### Arguments -/

private theorem binding?_sum_indentTotal {n m : Bool} (mentions : (n || m) = true)
    (offset : Int32) :
    (indentTotal n m offset).sum.binding? = some (.indent n m offset) := by
  by_cases zero : offset = 0
  · subst zero
    cases n <;> cases m <;> first | rfl | cases mentions
  · cases n with
    | true =>
        rw [indentTotal, if_pos rfl, Total.sum, addAll_append, addAll_offsetTerms zero]
        cases m <;> simp [addAll, Term.add, Sum.addFormal, Sum.binding?, Sum.formal?,
          Sum.isConstant]
    | false =>
        obtain rfl : m = true := mentions
        simp [indentTotal, zero, Total.sum, addAll, Term.add, Sum.addFormal, Sum.binding?,
          Sum.formal?, Sum.isConstant]

/-- An indentation is gathered unless its offset is the least number behind `n`. -/
theorem sum?_indentTotal (n m : Bool) (offset : Int32) : (indentTotal n m offset).sum? =
    if (Binding.indent n m offset).isReadable then some (indentTotal n m offset).sum else none := by
  split
  · rename_i readable
    refine (fits_indentTotal ?_).sum?_eq
    rintro rfl
    simpa [Binding.isReadable] using readable
  · rename_i least
    cases n with
    | false => exact absurd rfl least
    | true =>
        obtain rfl : offset = -2147483648 := by simpa [Binding.isReadable] using least
        cases m <;> rfl

/-- The parameter of an argument computes it, if the argument is read back. -/
theorem binding?_parameter {binding : Binding} (valid : binding.isArgument = true) :
    binding.parameter.binding? = if binding.isReadable then some binding else none := by
  match binding with
  | .literal (.int value) =>
      rw [Binding.parameter, Parameter.binding?, (fits_number (inInt32_toInt value)).sum?_eq]
      simp [Total.sum, addAll, Term.add, Sum.binding?, Sum.formal?, Sum.isConstant,
        Binding.isReadable]
  | .literal (.context _) | .literal (.chomping _) => rfl
  | .context | .chomping | .inFlow => rfl
  | .indent n m offset =>
      rw [Binding.parameter, Parameter.binding?, sum?_indentTotal]
      split
      · exact binding?_sum_indentTotal valid offset
      · rfl

/-! ### Heads and counts -/

/-- The parameter that a formal is printed as in a head, with the value of a pattern if it has
one. -/
def headParameter (formal : Formal) : Option Value → Parameter
  | none => .sum ⟨.formal formal, []⟩
  | some value => Binding.parameter (.literal value)

theorem chars_headParameter (formal : Formal) (value : Option Value) :
    (headParameter formal value).chars = ((value.map Value.text).getD formal.text).toList := by
  cases value with
  | none => exact List.append_nil _
  | some value => exact Binding.chars_parameter (.literal value)

/-- A formal of a head declares itself with the value of its kind. -/
theorem declared?_headParameter {formal : Formal} {value : Option Value}
    (kind : ∀ bound ∈ value, bound.formal = formal) :
    (headParameter formal value).declared? = some (formal, value) := by
  cases value with
  | none => cases formal <;> rfl
  | some value =>
      obtain rfl := kind value rfl
      cases value with
      | int value =>
          rw [headParameter, Binding.parameter, Parameter.declared?,
            (fits_number (inInt32_toInt value)).sum?_eq]
          simp [Parameter.declaredBy?, Total.sum, addAll, Term.add, Sum.formal?, Sum.isConstant,
            Value.formal]
      | context value => rfl
      | chomping value => rfl

/-- The sum that a count is printed as. -/
def Bound.total : Bound → Total
  | .fixed count => ⟨.number count.toNat, []⟩
  | .computed (.indent n m offset) => indentTotal n m offset
  | .computed _ => ⟨.number 0, []⟩

theorem chars_total {count : Bound} (valid : count.isCount = true) :
    (Bound.total count).chars = count.text.toList := by
  match count with
  | .fixed count => exact List.append_nil _
  | .computed (.indent n m offset) => exact chars_indentTotal n m offset

private theorem isConstant_of_indent {sum : Sum} {n m : Bool} {offset : Int32}
    (binds : sum.binding? = some (.indent n m offset)) : sum.isConstant = false := by
  by_contra constant
  rw [Sum.binding?] at binds
  split at binds
  · cases binds
  · cases binds
  · simp [constant] at binds

/-- The sum of a count is the count, if that is read back. -/
theorem bound?_total {count : Bound} (valid : count.isCount = true) :
    (Bound.total count).bound? = if count.isReadable then some count else none := by
  match count with
  | .fixed count =>
      have small : count.toNat < 2147483648 := of_decide_eq_true valid
      have range : InInt32 count.toNat := ⟨by omega, by omega⟩
      rw [Bound.total, Total.bound?, (fits_number range).sum?_eq]
      simp [countOf?, Total.sum, addAll, Term.add, Sum.isConstant, Bound.isReadable]
  | .computed (.indent n m offset) =>
      have binds := binding?_sum_indentTotal valid offset
      rw [Bound.total, Total.bound?, sum?_indentTotal, Bound.isReadable]
      split
      · simp [countOf?, isConstant_of_indent binds, binds]
      · rfl

end Dialect

end Bnf

end ParametricGrammar
