import Mathlib.Data.List.Forall2
import ParametricGrammar.Matching.Session
import ParametricGrammar.Proofs.SetAlgebra
/-!
# Expressions that are evaluated alike

Two expressions are alike if they are evaluated alike in every production, however calls are
evaluated. Rows and choices may be grouped in any way, and a set is a choice of its ranges. Grammars
with alike bodies evaluate every expression alike, with the same memory behind it.
-/

namespace ParametricGrammar

/-! ### Steps one after the other -/

namespace Step

/-- Matches nothing, wherever it is. -/
def stay : Step := fun cursor memory => (.matched [] cursor, memory)

/-- Never matches. -/
def never : Step := fun _ memory => (.unmatched, memory)

/-- Matches one step and then another. -/
def andThen (step next : Step) : Step := fun cursor memory =>
  match step cursor memory with
  | (.matched nodes stop, memory) =>
      match next stop memory with
      | (.matched more stop, memory) => (.matched (nodes ++ more) stop, memory)
      | (outcome, memory) => (outcome, memory)
  | (outcome, memory) => (outcome, memory)

/-- Tries one step and then another at the same place. -/
def orElse (step next : Step) : Step := fun cursor memory =>
  match step cursor memory with
  | (.unmatched, memory) => next cursor memory
  | (outcome, memory) => (outcome, memory)

/-- Matches one character of a class. -/
def one (may : Char → Bool) : Step := fun cursor memory =>
  match cursor.next? with
  | some (char, stop) => (if may char then .matched [] stop else .unmatched, memory)
  | none => (.unmatched, memory)

variable (first second third : Step)

private theorem stay_andThen : stay.andThen first = first := by
  funext cursor memory
  simp only [andThen, stay, List.nil_append]
  split <;> simp_all

theorem andThen_stay : first.andThen stay = first := by
  funext cursor memory
  simp only [andThen, stay, List.append_nil]
  split <;> simp_all

private theorem andThen_assoc :
    (first.andThen second).andThen third = first.andThen (second.andThen third) := by
  funext cursor memory
  simp only [andThen]
  rcases first cursor memory with ⟨_ | _ | _, later⟩ <;> try rfl
  rename_i nodes stop
  dsimp only
  rcases second stop later with ⟨_ | _ | _, last⟩ <;> try rfl
  rename_i more stop
  dsimp only
  rcases third stop last with ⟨_ | _ | _, _⟩ <;> simp

private theorem never_orElse : never.orElse first = first := rfl

private theorem orElse_never : first.orElse never = first := by
  funext cursor memory
  simp only [orElse, never]
  split <;> simp_all

private theorem orElse_assoc :
    (first.orElse second).orElse third = first.orElse (second.orElse third) := by
  funext cursor memory
  simp only [orElse]
  rcases first cursor memory with ⟨_ | _ | _, later⟩ <;> rfl

private theorem one_false : one (fun _ => false) = never := by
  funext cursor memory
  simp only [one, never]
  split <;> simp

private theorem one_orElse (left right : Char → Bool) :
    (one left).orElse (one right) = one fun char => left char || right char := by
  funext cursor memory
  simp only [orElse, one]
  cases cursor.next? with
  | none => rfl
  | some step => by_cases here : left step.1 = true <;> simp [here]

end Step

namespace Node

variable {production : String} {invoke : Invoke} {parameters : Parameters}

theorem evaluateAll_nil : evaluateAll production invoke [] parameters = Step.stay := rfl

theorem evaluateAll_cons (node : Node) (rest : List Node) :
    evaluateAll production invoke (node :: rest) parameters =
      Step.andThen (evaluate production invoke node parameters)
        (evaluateAll production invoke rest parameters) := rfl

private theorem evaluateAll_append (left right : List Node) :
    evaluateAll production invoke (left ++ right) parameters =
      Step.andThen (evaluateAll production invoke left parameters)
        (evaluateAll production invoke right parameters) := by
  induction left with
  | nil => rw [evaluateAll_nil, Step.stay_andThen, List.nil_append]
  | cons node left induction =>
      rw [List.cons_append, evaluateAll_cons, induction, evaluateAll_cons, Step.andThen_assoc]

private theorem evaluateFirst_nil : evaluateFirst production invoke [] parameters = Step.never :=
  rfl

private theorem evaluateFirst_cons (node : Node) (rest : List Node) :
    evaluateFirst production invoke (node :: rest) parameters =
      Step.orElse (evaluate production invoke node parameters)
        (evaluateFirst production invoke rest parameters) := rfl

private theorem evaluateFirst_append (left right : List Node) :
    evaluateFirst production invoke (left ++ right) parameters =
      Step.orElse (evaluateFirst production invoke left parameters)
        (evaluateFirst production invoke right parameters) := by
  induction left with
  | nil => rw [evaluateFirst_nil, Step.never_orElse, List.nil_append]
  | cons node left induction =>
      rw [List.cons_append, evaluateFirst_cons, induction, evaluateFirst_cons, Step.orElse_assoc]

theorem evaluate_chars (set : CharSet) :
    evaluate production invoke (.chars set) parameters = Step.one set.contains := rfl

end Node

/-! ### Alike expressions -/

/-- Two expressions are evaluated alike in every production, however calls are evaluated. -/
def Alike (left right : Node) : Prop :=
  ∀ (production : String) (invoke : Invoke),
    left.evaluate production invoke = right.evaluate production invoke

namespace Alike

variable {left right third child other : Node} {lefts rights nodes : List Node}

theorem refl (node : Node) : Alike node node := fun _ _ => rfl

theorem symm (alike : Alike left right) : Alike right left :=
  fun production invoke => (alike production invoke).symm

theorem trans (alike : Alike left right) (next : Alike right third) : Alike left third :=
  fun production invoke => (alike production invoke).trans (next production invoke)

theorem sequence (all : List.Forall₂ Alike lefts rights) :
    Alike (.sequence lefts) (.sequence rights) := by
  intro production invoke
  funext parameters
  rw [Node.evaluate_sequence, Node.evaluate_sequence]
  induction all with
  | nil => rfl
  | cons head _ induction =>
      rw [Node.evaluateAll_cons, Node.evaluateAll_cons, head production invoke, induction]

theorem first (all : List.Forall₂ Alike lefts rights) :
    Alike (.first lefts) (.first rights) := by
  intro production invoke
  funext parameters
  rw [Node.evaluate_first, Node.evaluate_first]
  induction all with
  | nil => rfl
  | cons head _ induction =>
      rw [Node.evaluateFirst_cons, Node.evaluateFirst_cons, head production invoke, induction]

theorem sequence_singleton (node : Node) : Alike (.sequence [node]) node := by
  intro production invoke
  funext parameters
  rw [Node.evaluate_sequence, Node.evaluateAll_cons, Node.evaluateAll_nil, Step.andThen_stay]

theorem first_singleton (node : Node) : Alike (.first [node]) node := by
  intro production invoke
  funext parameters
  rw [Node.evaluate_first, Node.evaluateFirst_cons, Node.evaluateFirst_nil, Step.orElse_never]

/-- Rows in a row are one row. -/
theorem sequence_flatten (rows : List (List Node)) :
    Alike (.sequence (rows.map .sequence)) (.sequence rows.flatten) := by
  intro production invoke
  funext parameters
  rw [Node.evaluate_sequence, Node.evaluate_sequence]
  induction rows with
  | nil => rfl
  | cons row rows induction =>
      rw [List.map_cons, Node.evaluateAll_cons, induction, Node.evaluate_sequence,
        List.flatten_cons, Node.evaluateAll_append]

/-- Choices in a choice are one choice. -/
theorem first_flatten (choices : List (List Node)) :
    Alike (.first (choices.map .first)) (.first choices.flatten) := by
  intro production invoke
  funext parameters
  rw [Node.evaluate_first, Node.evaluate_first]
  induction choices with
  | nil => rfl
  | cons choice choices induction =>
      rw [List.map_cons, Node.evaluateFirst_cons, induction, Node.evaluate_first,
        List.flatten_cons, Node.evaluateFirst_append]

theorem repeated (alike : Alike child other) (minimum : Bound) (maximum : Option Bound) :
    Alike (.repeated child minimum maximum) (.repeated other minimum maximum) := by
  intro production invoke
  funext parameters cursor memory
  simp only [Node.evaluate, alike production invoke]

theorem lookahead (alike : Alike child other) (positive : Bool) :
    Alike (.lookahead child positive) (.lookahead other positive) := by
  intro production invoke
  funext parameters cursor memory
  simp only [Node.evaluate, alike production invoke]

theorem lookbehind (alike : Alike child other) : Alike (.lookbehind child) (.lookbehind other) := by
  intro production invoke
  funext parameters cursor memory
  simp only [Node.evaluate, alike production invoke]

theorem cases {arms others : List (Parameters × Node)}
    (all : List.Forall₂ (fun arm other => arm.1 = other.1 ∧ Alike arm.2 other.2) arms others) :
    Alike (.cases arms) (.cases others) := by
  intro production invoke
  funext parameters cursor memory
  simp only [Node.evaluate]
  induction all with
  | nil => rfl
  | @cons arm other _ _ head _ induction =>
      obtain ⟨pattern, body⟩ := arm
      obtain ⟨rfl, alike⟩ := head
      rw [Node.evaluateCases, Node.evaluateCases, alike production invoke, induction]

/-! ### Sets of characters -/

/-- A choice of sets is a set that has their members together. -/
theorem first_chars {sets : List CharSet} {set : CharSet}
    (together : ∀ char, set.contains char = sets.any (·.contains char)) :
    Alike (.first (sets.map .chars)) (.chars set) := by
  intro production invoke
  funext parameters
  rw [Node.evaluate_first, Node.evaluate_chars, funext together]
  clear together
  induction sets with
  | nil => exact Node.evaluateFirst_nil.trans Step.one_false.symm
  | cons head sets induction =>
      rw [List.map_cons, Node.evaluateFirst_cons, Node.evaluate_chars, induction, Step.one_orElse]
      rfl

/-- A literal of one character is a set of one. -/
theorem literal_single (char : Char) :
    Alike (.literal (String.ofList [char])) (.chars (.single char.val)) := by
  intro production invoke
  funext parameters cursor memory
  rw [Node.evaluate, Node.evaluate, String.toList_ofList, Cursor.skip?]
  cases cursor.next? with
  | none => rfl
  | some step =>
      simp only [CharSet.contains_single, ← Char.ext_iff]
      by_cases same : step.1 = char <;> simp [same, Cursor.skip?]

end Alike

/-! ### Alike grammars -/

/-- Productions that differ only in that their bodies are alike. -/
structure Production.Alike (left right : Production) : Prop where
  number : left.number = right.number
  formals : left.formals = right.formals
  body : ParametricGrammar.Alike left.body right.body

/-- Grammars whose productions have the same names, one by one, and are alike. -/
def Grammar.Alike (left right : Grammar) : Prop :=
  List.Forall₂ (fun entry other => entry.1 = other.1 ∧ entry.2.Alike other.2) left.entries
    right.entries

namespace Grammar.Alike

variable {left right : Grammar}

private theorem lookup {entries others : List (String × Production)} {name : String}
    (all : List.Forall₂ (fun entry other => entry.1 = other.1 ∧ entry.2.Alike other.2) entries
      others) :
    Option.Rel Production.Alike (entries.lookup name) (others.lookup name) := by
  induction all with
  | nil => exact .none
  | @cons entry other _ _ head _ induction =>
      obtain ⟨called, production⟩ := entry
      obtain ⟨same, alike⟩ := head
      rw [List.lookup_cons, List.lookup_cons, ← same]
      by_cases here : name = called
      · simpa [here] using Option.Rel.some alike
      · simpa [beq_false_of_ne here] using induction

/-- Calls over alike grammars have the same outcomes and leave the same memory. -/
theorem invoke_eq (alike : Grammar.Alike left right) (cached : Bool) (limit room : Nat) :
    Setting.invoke ⟨left, cached, limit⟩ room = Setting.invoke ⟨right, cached, limit⟩ room := by
  induction room using Nat.strongRecOn with
  | _ room induction =>
  funext caller name arguments parameters cursor memory
  have found : Option.Rel Production.Alike (left.get? name) (right.get? name) := lookup alike
  rw [Setting.invoke, Setting.invoke]
  generalize left.get? name = here at found ⊢
  generalize right.get? name = there at found ⊢
  cases found with
  | none => rfl
  | some alike =>
      rename_i production other
      dsimp only
      rw [alike.formals]
      cases room with
      | zero => rfl
      | succ room =>
          simp only [alike.body name, induction room (Nat.lt_succ_self room)]
          rfl

/-- Alike grammars evaluate every expression alike, at every place and under every limit, and leave
the same memory. -/
theorem parse_eq (alike : Grammar.Alike left right) (cached : Bool) (limit : ℕ) :
    Setting.parse ⟨left, cached, limit⟩ = Setting.parse ⟨right, cached, limit⟩ := by
  funext text offset parameters node memory
  rw [Setting.parse, Setting.parse, alike.invoke_eq]

theorem parseAll_eq (alike : Grammar.Alike left right) (cached : Bool) (limit : ℕ) :
    Setting.parseAll ⟨left, cached, limit⟩ = Setting.parseAll ⟨right, cached, limit⟩ := by
  funext root text
  rw [Setting.parseAll, Setting.parseAll, alike.invoke_eq]

end Grammar.Alike

end ParametricGrammar
