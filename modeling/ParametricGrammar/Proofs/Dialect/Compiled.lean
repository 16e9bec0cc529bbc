import ParametricGrammar.Grammar
import ParametricGrammar.Proofs.Dialect.Lexemes
import ParametricGrammar.Proofs.Dialect.Meanings
import ParametricGrammar.Proofs.SetOperations
/-!
# Grammars that texts can have

Which arguments, counts, expressions and productions grammar texts are translated to. A printed
grammar is read back on these grounds.
-/

namespace ParametricGrammar

/-- Whether an argument can be read as a binding: a sum mentions a parameter or is a number. -/
def Binding.isArgument : Binding → Bool
  | .indent n m _ => n || m
  | _ => true

/-- Whether a count can be read as a bound. -/
def Bound.isCount : Bound → Bool
  | .fixed count => count.toNat < 2147483648
  | .computed (.indent n m _) => n || m
  | .computed _ => false

/-- The values of a pattern belong to given formals, each to the one that it stands for. -/
def Parameters.Fits (pattern : Parameters) (formals : List Formal) : Prop :=
  ∀ formal value, pattern.get? formal = some value → formal ∈ formals ∧ value.formal = formal

theorem Parameters.fits_empty (formals : List Formal) : Parameters.empty.Fits formals := by
  rintro (_ | _ | _ | _) _ ⟨⟩

namespace Bnf

open Dialect

/-- Expressions that match one character if the productions that they mention do. -/
inductive Single : Node → Prop where
  | literal (char : Char) : Single (.literal (String.ofList [char]))
  | chars (set : CharSet) : Single (.chars set)
  | call (name : String) : Single (.call name)
  | first {children : List Node} (all : ∀ child ∈ children, Single child) :
      Single (.first children)
  | guarded {guards : List Node} {last : Node} (some : guards ≠ [])
      (negative : ∀ guard ∈ guards, ∃ node, guard = .notAhead node) (single : Single last) :
      Single (.sequence (guards ++ [last]))

/-- Expressions that bodies are translated to. -/
inductive Compiled : Node → Prop where
  | empty : Compiled .empty
  | startOfLine : Compiled .startOfLine
  | endOfInput : Compiled .endOfInput
  | literal {quote : Char} {run : List Char} (known : isQuote quote = true) (some : run ≠ [])
      (all : run.all (fits quote) = true) : Compiled (.literal (String.ofList run))
  | chars {set : CharSet} (valid : set.Valid) : Compiled (.chars set)
  | reference {name : List Char} {arguments : List Binding} (valid : isName name = true)
      (other : isHexLike name = false) (all : ∀ argument ∈ arguments, argument.isArgument = true) :
      Compiled (.reference (String.ofList name) arguments)
  | sequence {children : List Node} (many : 2 ≤ children.length)
      (all : ∀ child ∈ children, Compiled child) : Compiled (.sequence children)
  | first {children : List Node} (many : 2 ≤ children.length)
      (all : ∀ child ∈ children, Compiled child) : Compiled (.first children)
  | marked (mark : Mark) {child : Node} (inside : Compiled child) : Compiled (mark.repeated child)
  | counted {count : Bound} {child : Node} (valid : count.isCount = true)
      (inside : Compiled child) : Compiled (.repeated child count (some count))
  | lookahead {child : Node} {positive : Bool} (inside : Compiled child) :
      Compiled (.lookahead child positive)
  | lookbehind {child : Node} (single : Single child) (inside : Compiled child) :
      Compiled (.lookbehind child)

/-- Bodies of productions: an expression, or cases that patterns tell apart. -/
inductive CompiledBody (formals : List Formal) : Node → Prop where
  | plain {body : Node} (compiled : Compiled body) : CompiledBody formals body
  | cases {arms : List (Parameters × Node)} (some : arms ≠ [])
      (patterned : ∀ arm, arms = [arm] → arm.1.isEmpty = false)
      (distinct : (arms.map Prod.fst).Nodup)
      (each : ∀ arm ∈ arms, arm.1.Fits formals ∧ Compiled arm.2) :
      CompiledBody formals (.cases arms)

/-- Productions that clauses of a text form. -/
structure CompiledProduction (production : Production) : Prop where
  distinct : production.formals.Nodup
  body : CompiledBody production.formals production.body

/-- Grammars that texts are translated to. -/
def CompiledGrammar (grammar : Grammar) : Prop :=
  ∀ entry ∈ grammar.entries, isName entry.1.toList = true ∧ CompiledProduction entry.2

theorem Compiled.ne_cases {node : Node} (compiled : Compiled node)
    (arms : List (Parameters × Node)) : node ≠ .cases arms := by
  cases compiled with
  | marked mark => cases mark <;> exact nofun
  | _ => exact nofun

theorem Compiled.soleOr_first {nodes : List Node} (positive : 0 < nodes.length)
    (all : ∀ node ∈ nodes, Compiled node) : Compiled (soleOr .first nodes) := by
  rcases nodes with _ | ⟨only, _ | ⟨second, more⟩⟩
  · cases positive
  · exact all only List.mem_cons_self
  · exact .first (by simp) all

theorem Compiled.soleOr_sequence {nodes : List Node} (positive : 0 < nodes.length)
    (all : ∀ node ∈ nodes, Compiled node) : Compiled (soleOr .sequence nodes) := by
  rcases nodes with _ | ⟨only, _ | ⟨second, more⟩⟩
  · cases positive
  · exact all only List.mem_cons_self
  · exact .sequence (by simp) all

theorem Compiled.guarded {guards : List Node} {last : Node} (some : guards ≠ [])
    (all : ∀ guard ∈ guards, Compiled guard) (compiled : Compiled last) :
    Compiled (.sequence (guards ++ [last])) := by
  have positive := List.length_pos_of_ne_nil some
  refine .sequence (by simp; omega) fun child member => ?_
  rcases List.mem_append.mp member with guard | same
  · exact all child guard
  · obtain rfl := List.mem_singleton.mp same
    exact compiled

theorem Single.soleOr_first {nodes : List Node} (all : ∀ node ∈ nodes, Single node) :
    Single (soleOr .first nodes) := by
  rcases nodes with _ | ⟨only, _ | ⟨second, more⟩⟩
  · exact .first all
  · exact all only List.mem_cons_self
  · exact .first all

end Bnf

end ParametricGrammar
