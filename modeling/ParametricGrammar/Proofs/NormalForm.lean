import ParametricGrammar.Proofs.Dialect.ClauseTranslation
/-!
# The normal form of compiled grammars

Grammars of texts have a normal form: formals are distinct, cases stand only as whole bodies, rows
and choices have at least two parts, literals can be quoted, sets are canonical, and counts are
those that quantifiers can write. The form can be computed.
-/

namespace ParametricGrammar

open Bnf Dialect

/-- Whether one kind of quote can enclose a text: it has characters, but no line break and not both
kinds of quote. -/
def isQuotable (text : String) : Bool :=
  !text.toList.isEmpty && text.toList.all (fun char => !Piece.breaksLine char) &&
    !(text.toList.contains '\'' && text.toList.contains '"')

/-- Whether ranges are canonical and end with a code point of a character. -/
def CharSet.isValid (set : CharSet) : Bool :=
  decide (Canonical set.ranges) && set.ranges.all fun range => range.last ≤ maxCodePoint

/-- Whether bounds are those of a quantifier: a mark, or one count for both. -/
def isQuantifier : Bound → Option Bound → Bool
  | .fixed 0, some (.fixed 1) | .fixed 0, none | .fixed 1, none => true
  | minimum, some maximum => minimum = maximum && minimum.isCount
  | _, none => false

namespace Node

mutual

/-- Whether an expression has the normal form of a body without cases. -/
def isNormal : Node → Bool
  | .empty | .startOfLine | .endOfInput => true
  | .literal text => isQuotable text
  | .chars set => set.isValid
  | .reference name arguments =>
      isName name.toList && arguments.all Binding.isArgument
  | .sequence children | .first children => decide (2 ≤ children.length) && areNormal children
  | .repeated child minimum maximum => isQuantifier minimum maximum && isNormal child
  | .lookahead child _ | .lookbehind child => isNormal child
  | .detectIndentation _ _ | .cases _ => false

/-- Whether all expressions of a list have it. -/
def areNormal : List Node → Bool
  | [] => true
  | node :: rest => isNormal node && areNormal rest

end

private theorem areNormal_iff {nodes : List Node} :
    areNormal nodes = true ↔ ∀ node ∈ nodes, node.isNormal = true := by
  induction nodes with
  | nil => simp [areNormal]
  | cons node nodes induction => simp [areNormal, induction]

end Node

/-- Whether every field that a pattern binds is among some formals. -/
def Parameters.isOver (pattern : Parameters) (formals : List Formal) : Bool :=
  Formal.all.all fun formal => (pattern.get? formal).isNone || formals.contains formal

/-- Whether a body has the normal form: an expression, or cases told apart by patterns over the
formals. -/
def Node.isNormalBody (formals : List Formal) : Node → Bool
  | .cases arms =>
      !arms.isEmpty && decide (arms.map Prod.fst).Nodup &&
        arms.all fun arm => arm.1.isOver formals && arm.2.isNormal
  | body => body.isNormal

/-- Whether a production has the normal form. -/
def Production.isNormal (production : Production) : Bool :=
  decide production.formals.Nodup && production.body.isNormalBody production.formals

/-! ### Compiled expressions -/

private theorem isQuotable_ofList {quote : Char} {run : List Char} (known : isQuote quote = true)
    (some : run ≠ []) (all : run.all (fits quote) = true) :
    isQuotable (String.ofList run) = true := by
  have each : ∀ char ∈ run, char ≠ quote ∧ Piece.breaksLine char = false := by
    intro char member
    have fit := List.all_eq_true.mp all char member
    simpa [fits] using fit
  have absent : quote ∉ run := fun member => (each quote member).1 rfl
  have oneLine : (run.all fun char => !Piece.breaksLine char) = true := by
    rw [List.all_eq_true]
    intro char member
    simp [(each char member).2]
  have quotes : (run.contains '\'' && run.contains '"') = false := by
    obtain rfl | rfl : quote = '\'' ∨ quote = '"' := by simpa [isQuote] using known
    · simp [absent]
    · simp [absent]
  simp only [isQuotable, String.toList_ofList, oneLine, quotes]
  simpa using some

private theorem CharSet.Valid.isValid {set : CharSet} (valid : set.Valid) : set.isValid = true := by
  rw [CharSet.isValid, Bool.and_eq_true, decide_eq_true_eq, List.all_eq_true]
  refine ⟨valid.canonical, fun range member => ?_⟩
  exact decide_eq_true (valid.bounded range member)

private theorem isQuantifier_of_isCount {count : Bound} (valid : count.isCount = true) :
    isQuantifier count (some count) = true := by
  unfold isQuantifier
  split <;> simp_all

private theorem Bnf.Compiled.isNormal {node : Node} (compiled : Compiled node) :
    node.isNormal = true := by
  induction compiled with
  | empty | startOfLine | endOfInput => rfl
  | literal known some all => exact isQuotable_ofList known some all
  | chars valid => exact valid.isValid
  | reference valid other all =>
      rw [Node.isNormal, Bool.and_eq_true, String.toList_ofList]
      exact ⟨valid, List.all_eq_true.mpr all⟩
  | sequence many _ induction | first many _ induction =>
      rw [Node.isNormal, Bool.and_eq_true]
      exact ⟨decide_eq_true many, Node.areNormal_iff.mpr induction⟩
  | marked mark _ induction =>
      cases mark <;> exact Bool.and_eq_true_iff.mpr ⟨rfl, induction⟩
  | counted valid _ induction =>
      rw [Node.isNormal, Bool.and_eq_true]
      exact ⟨isQuantifier_of_isCount valid, induction⟩
  | lookahead _ induction | lookbehind _ _ induction => exact induction

private theorem Parameters.Fits.isOver {pattern : Parameters} {formals : List Formal}
    (fits : pattern.Fits formals) : pattern.isOver formals = true := by
  rw [Parameters.isOver, List.all_eq_true]
  intro formal _
  cases bound : pattern.get? formal with
  | none => rfl
  | some value => simpa using (fits formal value bound).1

private theorem Bnf.CompiledBody.isNormalBody {formals : List Formal} {body : Node}
    (compiled : CompiledBody formals body) : body.isNormalBody formals = true := by
  cases compiled with
  | plain compiled =>
      have normal := compiled.isNormal
      rw [Node.isNormalBody.eq_def]
      split
      · cases normal
      · exact normal
  | cases some _ distinct each =>
      rw [Node.isNormalBody, Bool.and_eq_true, Bool.and_eq_true, List.all_eq_true]
      refine ⟨⟨by simpa using some, decide_eq_true distinct⟩, fun arm member => ?_⟩
      rw [Bool.and_eq_true]
      exact ⟨(each arm member).1.isOver, (each arm member).2.isNormal⟩

private theorem Bnf.CompiledProduction.isNormal {production : Production}
    (compiled : CompiledProduction production) : production.isNormal = true := by
  rw [Production.isNormal, Bool.and_eq_true]
  exact ⟨decide_eq_true compiled.distinct, compiled.body.isNormalBody⟩

/-- Every production of the grammar of a text has the normal form. -/
theorem isNormal_of_compile {text : String} {compiled : Grammar}
    (compiles : compile text = .ok compiled) :
    ∀ entry ∈ compiled.entries, entry.2.isNormal = true := by
  intro entry member
  exact (compiledGrammar_of_compile compiles entry member).2.isNormal

/-- Two clauses with a literal, a count from the parameters, and a set that two literals leave. -/
def indentedText : String :=
  "line(n,block-in) ::= ' '{n+1} line(n,c)\nline(n,c) ::= ( . - x0A - 'z' )+ | '\"'\n"

/-- The grammar of this text. -/
def indentedGrammar : Grammar :=
  .ofList
    [ ("line",
        ⟨none, [.n, .c],
          .cases
            [ ({ c := some .blockIn },
                .sequence
                  [ .repeated (.literal " ") (.computed (.indent true false 1))
                      (some (.computed (.indent true false 1))),
                    .reference "line" [.indent true false 0, .context] ]),
              ({},
                .first
                  [ .oneOrMore (.chars ⟨[⟨0, 9⟩, ⟨11, 121⟩, ⟨123, 0x10FFFF⟩]⟩),
                    .literal "\"" ]) ]⟩) ]

theorem isNormal_indented :
    compile indentedText = .ok indentedGrammar ∧
      ∀ entry ∈ indentedGrammar.entries, entry.2.isNormal = true := by
  have compiles : compile indentedText = .ok indentedGrammar :=
    compile_of_uncached (by decide +kernel)
  exact ⟨compiles, isNormal_of_compile compiles⟩

end ParametricGrammar
