import ParametricGrammar.Proofs.WellFormed
/-!
# Subtrees on their own

The tree of a production depends on its name, its bound parameters and its place, and on nothing
else of the run that it was found in: neither the parameters of its caller nor an indentation
detected there, neither the alternatives around it nor the calls that were active. So each node of a
parse tree is found again by a reference at its own place whose arguments are the literal values
that the node binds.
-/

namespace ParametricGrammar

/-! ### Literal arguments -/

namespace Parameters

/-- The values bound to some formals, as arguments. -/
def literals (parameters : Parameters) (formals : List Formal) : List Binding :=
  formals.filterMap fun formal => (parameters.get? formal).map .literal

theorem get?_empty (formal : Formal) : empty.get? formal = none := by
  cases formal <;> rfl

/-- Parameters are determined by what the formals are bound to. -/
theorem eq_of_get?_eq {left right : Parameters}
    (same : ∀ formal, left.get? formal = right.get? formal) : left = right := by
  obtain ⟨n, m, c, t⟩ := left
  obtain ⟨n', m', c', t'⟩ := right
  have sameN : n = n' := Option.map_injective (fun _ _ => Value.int.inj) (same .n)
  have sameM : m = m' := Option.map_injective (fun _ _ => Value.int.inj) (same .m)
  have sameC : c = c' := Option.map_injective (fun _ _ => Value.context.inj) (same .c)
  have sameT : t = t' := Option.map_injective (fun _ _ => Value.chomping.inj) (same .t)
  rw [sameN, sameM, sameC, sameT]

/-- A value that is bound to a formal is of its kind, so it can be bound anywhere. -/
theorem exists_bind_of_get? {parameters : Parameters} {formal : Formal} {value : Value}
    (has : parameters.get? formal = some value) (bound : Parameters) :
    ∃ result, bound.bind formal value = .ok result := by
  cases formal <;> cases value <;> simp [get?, bind] at has ⊢

/-- Literal arguments bind their formals to the values that they were taken from. -/
theorem bindArguments_literals (caller name : String) (parameters target : Parameters)
    {formals : List Formal} (bound : Parameters)
    (all : ∀ formal ∈ formals, (target.get? formal).isSome = true) :
    ∃ result,
      bindArguments caller name parameters formals (target.literals formals) bound = .ok result ∧
        ∀ formal, result.get? formal =
          if formal ∈ formals then target.get? formal else bound.get? formal := by
  induction formals generalizing bound with
  | nil => exact ⟨bound, rfl, fun formal => by simp⟩
  | cons first formals induction =>
      obtain ⟨value, has⟩ := Option.isSome_iff_exists.mp (all first List.mem_cons_self)
      obtain ⟨next, step⟩ := exists_bind_of_get? has bound
      obtain ⟨result, binds, gets⟩ := induction next fun formal member =>
        all formal (List.mem_cons_of_mem first member)
      refine ⟨result, ?_, fun formal => ?_⟩
      · have arguments : target.literals (first :: formals) =
            .literal value :: target.literals formals := by
          simp [literals, has]
        rw [arguments, bindArguments]
        simp only [Binding.resolve, step]
        exact binds
      · rw [gets formal, get?_bind step formal]
        by_cases same : formal = first
        · subst same
          simp [has]
        · simp [same]

private theorem length_literals {parameters : Parameters} {formals : List Formal}
    (all : ∀ formal ∈ formals, (parameters.get? formal).isSome = true) :
    (parameters.literals formals).length = formals.length := by
  induction formals with
  | nil => rfl
  | cons first formals induction =>
      obtain ⟨value, has⟩ := Option.isSome_iff_exists.mp (all first List.mem_cons_self)
      have rest := induction fun formal member => all formal (List.mem_cons_of_mem first member)
      simpa [literals, has] using rest

/-- The literal values of parameters that bind some formals and no others bind the same again,
whoever is the caller. -/
theorem bindArguments_literals_self (caller name : String) (parameters : Parameters)
    {target : Parameters} {formals : List Formal}
    (exactly : ∀ formal, (target.get? formal).isSome = true ↔ formal ∈ formals) :
    bindArguments caller name parameters formals (target.literals formals) .empty = .ok target := by
  obtain ⟨result, binds, gets⟩ := bindArguments_literals caller name parameters target .empty
    fun formal member => (exactly formal).mpr member
  have same : result = target := by
    apply eq_of_get?_eq
    intro formal
    rw [gets formal]
    split
    · rfl
    · rename_i other
      have unbound : target.get? formal = none := by
        simpa [other] using exactly formal
      rw [unbound, get?_empty]
  rw [binds, same]

end Parameters

/-! ### Calls inside a derivation -/

/-- A node that a call found in a text: the body of its production derives its content in the range
that it covers, with calls nested less deeply than some depth. -/
structure Tree.FoundBy (grammar : Grammar) (depth : ℕ∞) (text : List Char)
    (production : Production) (tree : Tree) : Prop where
  defines : grammar.get? tree.name = some production
  binds : ∀ formal, (tree.parameters.get? formal).isSome = true ↔ formal ∈ production.formals
  derives : ∃ (inner : ℕ∞) (first last : Cursor), inner + 1 ≤ depth ∧ first.whole = text ∧
    first.offset = tree.start ∧ last.offset = tree.stop ∧
    Derives grammar inner tree.name (.node production.body) tree.parameters first
      (.matched tree.content last)

/-- Every node of some trees was found by a call in a text. -/
def Tree.AllFound (grammar : Grammar) (depth : ℕ∞) (text : List Char) (nodes : List Tree) : Prop :=
  ∀ level, ∀ entry ∈ preorderAll level nodes,
    ∃ production, entry.2.FoundBy grammar depth text production

namespace Tree.AllFound

variable {grammar : Grammar} {depth deeper : ℕ∞} {text : List Char} {nodes more : List Tree}

private theorem nil : AllFound grammar depth text [] := by
  intro level entry member
  simp [preorderAll] at member

private theorem append (left : AllFound grammar depth text nodes)
    (right : AllFound grammar depth text more) : AllFound grammar depth text (nodes ++ more) := by
  intro level entry member
  rw [preorderAll_append] at member
  rcases List.mem_append.mp member with member | member
  · exact left level entry member
  · exact right level entry member

theorem mono (le : depth ≤ deeper) (found : AllFound grammar depth text nodes) :
    AllFound grammar deeper text nodes := by
  intro level entry member
  obtain ⟨production, defines, binds, inner, first, last, nests, derives⟩ :=
    found level entry member
  exact ⟨production, defines, binds, inner, first, last, nests.trans le, derives⟩

private theorem singleton {tree : Tree} {production : Production}
    (found : tree.FoundBy grammar depth text production)
    (content : AllFound grammar depth text tree.content) : AllFound grammar depth text [tree] := by
  intro level entry member
  obtain ⟨name, parameters, nodes, start, stop⟩ := tree
  simp only [preorderAll, preorder, List.append_nil, List.mem_cons] at member
  rcases member with rfl | member
  · exact ⟨production, found⟩
  · exact content (level + 1) entry member

end Tree.AllFound

/-- All nodes in the trees of a match were found by calls, none nested deeper than the match. -/
theorem Derives.allFound {grammar : Grammar} {depth : ℕ∞} {production : String} {task : Task}
    {parameters : Parameters} {cursor stop : Cursor} {nodes : List Tree}
    (derives : Derives grammar depth production task parameters cursor (.matched nodes stop)) :
    Tree.AllFound grammar depth cursor.whole nodes := by
  have both : stop.whole = cursor.whole ∧ Tree.AllFound grammar depth cursor.whole nodes := by
    refine Derives.match_induction (motive := fun depth cursor nodes stop =>
      stop.whole = cursor.whole ∧ Tree.AllFound grammar depth cursor.whole nodes) ?_ ?_ ?_ derives
    · rintro _ cursor stop ⟨chars, spans⟩
      exact ⟨spans.whole_eq, .nil⟩
    · rintro _ cursor nodes middle more stop ⟨whole, before⟩ ⟨wholeStop, behind⟩
      exact ⟨wholeStop.trans whole, before.append (whole ▸ behind)⟩
    · rintro _ _ _ _ _ _ _ _ _ _ stop nests found counts binds body ⟨whole, content⟩
      have binding := isSome_get?_iff_of_call counts binds
      refine ⟨whole, .singleton ⟨found, binding, _, _, stop, nests, rfl, rfl, rfl, body⟩ ?_⟩
      exact content.mono (le_self_add.trans nests)
  exact both.2

/-- A node that a call found is derived by a reference with its own values as literals, made from
anywhere and under any parameters. -/
theorem Tree.FoundBy.derives_literals {grammar : Grammar} {depth : ℕ∞} {text : List Char}
    {production : Production} {tree : Tree} (found : tree.FoundBy grammar depth text production)
    (caller : String) (parameters : Parameters) :
    ∃ first last : Cursor, first.whole = text ∧ first.offset = tree.start ∧
      last.whole = text ∧ last.offset = tree.stop ∧
      Derives grammar depth caller
        (.node (.reference tree.name (tree.parameters.literals production.formals))) parameters
        first (.matched [tree] last) := by
  obtain ⟨inner, first, last, nests, whole, start, stop, body⟩ := found.derives
  have counts := Parameters.length_literals fun formal member => (found.binds formal).mpr member
  have binds := Parameters.bindArguments_literals_self caller tree.name parameters found.binds
  have call : Derives grammar depth caller
      (.node (.reference tree.name (tree.parameters.literals production.formals))) parameters first
      ((Outcome.matched tree.content last).enclose ⟨tree.name, tree.parameters, first.offset⟩) :=
    .reference nests found.defines counts binds body
  refine ⟨first, last, whole, start, body.whole_eq.trans whole, stop, ?_⟩
  rw [Outcome.enclose, start, stop] at call
  cases tree
  exact call

namespace Session

/-- Every subtree stands on its own. In a tree that a parse without a memory returns, each node is
what a fresh session with the same limit answers at the node's place, under any parameters, to a
reference whose arguments are the values that the node binds, in the order of the formals. -/
theorem ask_node_of_parseAll {grammar : Grammar} {limit : Nat} {root : String} {text : List Char}
    {tree : Tree} (parsed : (Setting.parseAll ⟨grammar, false, limit⟩ root text).1 = .ok tree) :
    ∀ entry ∈ tree.preorder 0, ∃ production, grammar.get? entry.2.name = some production ∧
      ∀ parameters : Parameters, ∃ stop : Cursor, stop.whole = text ∧
        stop.offset = entry.2.stop ∧
        ((fresh ⟨grammar, false, limit⟩ text).ask
          ⟨entry.2.start, parameters,
            .reference entry.2.name (entry.2.parameters.literals production.formals)⟩).1 =
          .matched [entry.2] stop := by
  intro entry member
  obtain ⟨last, -, -, derives⟩ := Setting.derives_depth_of_parseAll parsed
  have all : Tree.AllFound grammar limit text [tree] := derives.allFound
  obtain ⟨production, found⟩ := all 0 entry (by simpa [Tree.preorderAll] using member)
  refine ⟨production, found.defines, fun parameters => ?_⟩
  obtain ⟨first, stop, whole, start, wholeStop, ends, call⟩ :=
    found.derives_literals outside parameters
  refine ⟨stop, wholeStop, ends, ?_⟩
  have place : Cursor.at? text entry.2.start = some first :=
    Cursor.at?_eq_some_iff.mpr ⟨whole, start⟩
  have reproduced := call.reproduces ⟨grammar, false, limit⟩ limit le_rfl .fresh
    Memory.sound_fresh
  simp only [ask, parse, Setting.parse, fresh, place]
  exact reproduced

end Session

/-- Blocks of one line, which is called with the indentation that the block detects. -/
def Grammar.blocks : Grammar :=
  .ofList
    [ ("block",
        ⟨none, [],
          .detectIndentation (.literal (.int 1)) (.reference "line" [.indent false true 0])⟩),
      ("line",
        ⟨none, [.n],
          .sequence
            [ .repeated (.literal " ") (.computed (.indent true false 0))
                (some (.computed (.indent true false 0))),
              .literal "x" ]⟩) ]

/-- A line behind two spaces. -/
def Tree.line : Tree := ⟨"line", { n := some 2 }, [], 0, 3⟩

theorem Session.ask_line_of_block :
    (Setting.parseAll ⟨Grammar.blocks, false, 2⟩ "block" [' ', ' ', 'x']).1 =
        .ok ⟨"block", .empty, [Tree.line], 0, 3⟩ ∧
      (1, Tree.line) ∈ Tree.preorder 0 ⟨"block", .empty, [Tree.line], 0, 3⟩ ∧
      ∃ production, Grammar.blocks.get? "line" = some production ∧
        ∀ parameters : Parameters, ∃ stop : Cursor, stop.whole = [' ', ' ', 'x'] ∧
          stop.offset = 3 ∧
          ((fresh ⟨Grammar.blocks, false, 2⟩ [' ', ' ', 'x']).ask
            ⟨0, parameters,
              .reference "line" (Parameters.literals { n := some 2 } production.formals)⟩).1 =
            .matched [Tree.line] stop := by
  have parsed : (Setting.parseAll ⟨Grammar.blocks, false, 2⟩ "block" [' ', ' ', 'x']).1 =
      .ok ⟨"block", .empty, [Tree.line], 0, 3⟩ := rfl
  have member : (1, Tree.line) ∈ Tree.preorder 0 ⟨"block", .empty, [Tree.line], 0, 3⟩ := by
    simp [Tree.preorder, Tree.preorderAll, Tree.line]
  exact ⟨parsed, member, ask_node_of_parseAll parsed (1, Tree.line) member⟩

end ParametricGrammar
