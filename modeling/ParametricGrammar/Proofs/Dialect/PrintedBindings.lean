import ParametricGrammar.Proofs.Dialect.ClauseTranslation
import ParametricGrammar.Proofs.Dialect.Definitions
import ParametricGrammar.Proofs.Dialect.ReadArguments
/-!
# Printed bindings

A binding is printed as an argument that is translated to a binding with the same value for every
caller. The least offset behind `n` is the only exception: it is printed as a minus sign and the
magnitude, which is out of range on its own.
-/

namespace ParametricGrammar

/-- What a binding is read back as: an offset without `n` and `m` is a literal. -/
def Binding.asArgument : Binding → Binding
  | .indent false false offset => .literal (.int offset)
  | binding => binding

namespace Binding

private theorem resolve_asArgument (binding : Binding) (caller : Parameters) :
    binding.asArgument.resolve caller = binding.resolve caller := by
  unfold asArgument
  split
  · simp [resolve, bind, Except.bind, pure, Except.pure]
  · rfl

private theorem isArgument_asArgument (binding : Binding) :
    binding.asArgument.isArgument = true := by
  rcases binding with _ | _ | _ | ⟨_ | _, _ | _, _⟩ | _ <;> rfl

/-- The least offset behind `n` is the only argument that is not read back. -/
theorem isReadable_asArgument {binding : Binding}
    (apart : ∀ m, binding ≠ .indent true m (-2147483648)) :
    binding.asArgument.isReadable = true := by
  rcases binding with _ | _ | _ | ⟨_ | _, m, offset⟩ | _
  · rfl
  · rfl
  · rfl
  · cases m <;> rfl
  · have other : offset ≠ -2147483648 := by
      rintro rfl
      exact apart m rfl
    simpa [asArgument, isReadable] using other
  · rfl

private theorem parameter_asArgument (binding : Binding) :
    binding.asArgument.parameter = binding.parameter := by
  unfold asArgument
  split
  · rename_i offset
    by_cases zero : offset = 0
    · subst zero
      rfl
    · simp [parameter, Bnf.Dialect.indentTotal, zero]
  · rfl

end Binding

namespace Bnf

namespace Dialect

/-! ### Clauses with formals -/

variable {source : List Char} {tree : Tree} {name : List Char} {stands : Stands}
  {formals : List Formal} {body : Alternation}

/-- The formals in brackets behind the name of a clause are those of the clause. -/
theorem exists_clause_of_formals (distinct : formals.Nodup)
    (parts : ClauseParts none name (parameterList (headItems formals .empty)) stands source tree) :
    ∃ clause, Clause.ofTree source tree = .ok clause ∧ clause.name = String.ofList name ∧
      clause.formals = formals ∧ clause.pattern = .empty ∧ clause.number = none ∧
        stands source clause.body := by
  obtain ⟨number, ⟨label, named, written⟩, listed, body, alternation, holds⟩ := parts
  have heads := foldlM_add distinct (Parameters.fits_empty formals) listed
  refine ⟨⟨label.text source, formals, .empty, none, body, ⟨label.start, tree.stop⟩⟩, ?_,
    written, rfl, rfl, rfl, holds⟩
  rw [Clause.ofTree_eq, eq_none_of_rel number, heads]
  simp only [Tree.required, named, alternation]
  rfl

/-- A clause with formals is compiled to its production. -/
theorem compile_clauseChars (valid : isName name = true) (distinct : formals.Nodup)
    (shallow : body.nesting ≤ 1014) :
    compile (String.ofList (clauseChars none name (parameterList (headItems formals .empty))
      body.chars)) = .ok (.ofList [(String.ofList name,
          { formals := formals, body := body.meaning.node })]) := by
  have list := readsList_headItems (Parameters.fits_empty formals)
  refine compile_of_clause ((ReadsClause.of_body body.reads readsLabel_none valid list).mono
    shallow) fun source tree parts => ?_
  obtain ⟨clause, translated, named, formals, pattern, number, denotes⟩ :=
    exists_clause_of_formals distinct parts
  exact ⟨clause, translated, named, formals ▸ productionOf_singleton pattern number denotes⟩

/-! ### Printed bindings -/

/-- A production that passes an argument. -/
def passing (argument : Binding) : Grammar :=
  .ofList [("p", { formals := Formal.all, body := .reference "q" [argument] })]

/-- An argument is passed by what is compiled from its text. -/
theorem compile_argument (argument : Argument) {text : String}
    (same : text.toList = argument.chars) :
    compile ("p(n,m,c,t) ::= q(" ++ text ++ ")") = .ok (passing argument.binding) := by
  have call : ∃ body : Alternation, body.chars = 'q' :: '(' :: (text.toList ++ [')']) ∧
      body.meaning.node = .reference "q" [argument.binding] ∧ body.nesting ≤ 1014 := by
    refine ⟨.ofAtom (Atom.call ['q'] (by decide) (by decide) argument []), ?_, rfl, ?_⟩
    · simp [Atom.call, listItem, Argument.item, written, same]
    · simp [Atom.call]
  obtain ⟨body, chars, node, shallow⟩ := call
  have head : optionalChars (parameterList (headItems Formal.all .empty)) =
      "(n,m,c,t)".toList := chars_parameterList (chars_headItems Formal.all .empty)
  have clause : "p(n,m,c,t) ::= q(" ++ text ++ ")" = String.ofList (clauseChars none ['p']
      (parameterList (headItems Formal.all .empty)) body.chars) := by
    rw [← String.toList_inj]
    simp [clauseChars, optionalChars_none, head, chars]
  have compiled := compile_clauseChars (by decide : isName ['p'] = true)
    (by decide : Formal.all.Nodup) shallow
  rw [clause, compiled, node]
  rfl

/-- The magnitude of the least offset behind `n` is out of range. -/
theorem compile_least (m : Bool) :
    compile ("p(n,m,c,t) ::= q(" ++ (Binding.indent true m (-2147483648)).text ++ ")") =
      .error (.invalidNumber "2147483648" ⟨19, 29⟩) := by
  cases m with
  | false =>
      have text : "p(n,m,c,t) ::= q(" ++ (Binding.indent true false (-2147483648)).text ++ ")" =
          "p(n,m,c,t) ::= q(n-2147483648)" := by decide +kernel
      rw [text]
      exact compile_of_uncached (by decide +kernel)
  | true =>
      have text : "p(n,m,c,t) ::= q(" ++ (Binding.indent true true (-2147483648)).text ++ ")" =
          "p(n,m,c,t) ::= q(n-2147483648+m)" := by decide +kernel
      rw [text]
      exact compile_of_uncached (by decide +kernel)

/-- Printed bindings compile back. A binding is printed as an argument of a text that is compiled to
a production whose argument has, for every caller, the same value or error as the binding, unless
the binding is the least offset behind `n`. -/
theorem binding_compiles_back_iff (binding : Binding) :
    (∃ argument, compile ("p(n,m,c,t) ::= q(" ++ binding.text ++ ")") = .ok (passing argument) ∧
      ∀ caller, argument.resolve caller = binding.resolve caller) ↔
        ∀ m, binding ≠ .indent true m (-2147483648) := by
  constructor
  · rintro ⟨argument, compiles, -⟩ m rfl
    rw [compile_least] at compiles
    cases compiles
  · intro apart
    have computes : binding.parameter.binding? = some binding.asArgument := by
      rw [← binding.parameter_asArgument, binding?_parameter binding.isArgument_asArgument,
        if_pos (Binding.isReadable_asArgument apart)]
    have compiles := compile_argument (binding.parameter.argument binding.asArgument computes)
      (Binding.chars_parameter binding).symm
    exact ⟨binding.asArgument, compiles, binding.resolve_asArgument⟩

/-- The least offset behind `n` is printed, but not read back. -/
theorem least_offset_refused :
    (Binding.indent true false (-2147483648)).text = "n-2147483648" ∧
      compile "p(n,m,c,t) ::= q(n-2147483648)" = .error (.invalidNumber "2147483648" ⟨19, 29⟩) := by
  have printed : (Binding.indent true false (-2147483648)).text = "n-2147483648" := by
    decide +kernel
  have whole : "p(n,m,c,t) ::= q(" ++ "n-2147483648" ++ ")" = "p(n,m,c,t) ::= q(n-2147483648)" := by
    decide
  have refused := compile_least false
  rw [printed, whole] at refused
  exact ⟨printed, refused⟩

end Dialect

end Bnf

end ParametricGrammar
