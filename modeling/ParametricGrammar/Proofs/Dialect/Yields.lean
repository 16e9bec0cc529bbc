import ParametricGrammar.Proofs.Dialect.Rules
import ParametricGrammar.Proofs.WellFormed
/-!
# What matches of the dialect are made of

`Takes` and `Refuses` foresee what happens before given characters. `Yields` looks back at a match:
it splits the characters and the trees of the match along its expression, down to the calls inside
of every tree, and keeps what did not match on the way.
-/

namespace ParametricGrammar

namespace Node

instance : LawfulBEq (Bound × Option Bound) := inferInstance

mutual

/-- Whether an expression is of the kinds that the dialect is made of. -/
def isPlain : Node → Bool
  | .empty | .endOfInput | .literal _ | .chars _ => true
  | .reference _ arguments => arguments.isEmpty
  | .sequence children | .first children => arePlain children
  | .repeated child minimum maximum =>
      isPlain child &&
        ((minimum, maximum) ∈ [(.fixed 0, some (.fixed 1)), (.fixed 0, none), (.fixed 1, none)])
  | .lookahead _ positive => !positive
  | .startOfLine | .lookbehind _ | .detectIndentation _ _ | .cases _ => false

/-- Whether expressions are of the kinds that the dialect is made of. -/
def arePlain : List Node → Bool
  | [] => true
  | node :: rest => isPlain node && arePlain rest

end

end Node

namespace Bnf

namespace Dialect

private theorem isPlain_of_mem {name : String} {body : Node} (member : (name, body) ∈ rules) :
    body.isPlain = true :=
  check_of_mem (fun _ body => body.isPlain) (by decide) member

/-- An expression cannot match before given characters. -/
def Misses (node : Node) (ahead : List Char) : Prop :=
  ∀ depth chars rest leaves, ahead = chars ++ rest → ¬ Takes depth node chars rest leaves

private theorem misses_of_derives {depth : ℕ∞} {production : String} {node : Node} {cursor : Cursor}
    (derives : Derives grammar depth production (.node node) .empty cursor .unmatched) :
    Misses node cursor.rest := by
  intro deep chars rest leaves split takes
  obtain ⟨last, spans, behind⟩ := Cursor.exists_spans split
  obtain ⟨trees, matched, -⟩ := takes production cursor last spans behind
  cases derives.deterministic matched

/-- An expression has matched given characters before others. -/
def Matched (node : Node) (chars rest : List Char) : Prop :=
  ∃ (depth : ℕ∞) (production : String) (first last : Cursor) (trees : List Tree),
    Derives grammar depth production (.node node) .empty first (.matched trees last) ∧
      first.Spans chars last ∧ last.rest = rest

/-- What is taken is all that can have matched. -/
theorem Matched.of_takes {depth : ℕ} {node : Node} {chars others rest behind : List Char}
    {leaves : Leaves} (matched : Matched node chars rest)
    (takes : Takes depth node others behind leaves) (same : chars ++ rest = others ++ behind) :
    chars = others := by
  obtain ⟨_, production, first, last, _, derives, spans, rfl⟩ := matched
  obtain ⟨stop, spelled, ends⟩ := Cursor.exists_spans (spans.1.trans same)
  obtain ⟨_, other, -⟩ := takes production first stop spelled ends
  cases derives.deterministic other
  exact spans.chars_unique spelled

theorem Matched.not_refuses {depth : ℕ} {node : Node} {chars rest : List Char}
    (matched : Matched node chars rest) : ¬ Refuses depth node (chars ++ rest) := by
  intro refuses
  obtain ⟨_, production, first, last, _, derives, spans, rfl⟩ := matched
  cases derives.deterministic (refuses production first spans.1)

variable {source : List Char}

/-- An expression matches given characters before others and leaves given trees of a source. -/
inductive Yields (source : List Char) : Node → (chars rest : List Char) → List Tree → Prop where
  | empty {rest : List Char} : Yields source .empty [] rest []
  | endOfInput : Yields source .endOfInput [] [] []
  | literal {text : String} {rest : List Char} : Yields source (.literal text) text.toList rest []
  | chars {set : CharSet} {char : Char} {rest : List Char} (member : set.contains char = true) :
      Yields source (.chars set) [char] rest []
  | call {name : String} {body : Node} {chars rest : List Char} {tree : Tree}
      (member : (name, body) ∈ rules) (named : tree.name = name)
      (written : slice? source tree.start tree.stop = some chars)
      (matched : Matched (.call name) chars rest)
      (inside : Yields source body chars rest tree.content) :
      Yields source (.reference name []) chars rest [tree]
  | nil {rest : List Char} : Yields source (.sequence []) [] rest []
  | cons {node : Node} {nodes : List Node} {left right rest : List Char}
      {before behind : List Tree} (head : Yields source node left (right ++ rest) before)
      (tail : Yields source (.sequence nodes) right rest behind) :
      Yields source (.sequence (node :: nodes)) (left ++ right) rest (before ++ behind)
  | firstHead {node : Node} {nodes : List Node} {chars rest : List Char} {trees : List Tree}
      (chosen : Yields source node chars rest trees) :
      Yields source (.first (node :: nodes)) chars rest trees
  | firstNext {node : Node} {nodes : List Node} {chars rest : List Char} {trees : List Tree}
      (misses : Misses node (chars ++ rest))
      (later : Yields source (.first nodes) chars rest trees) :
      Yields source (.first (node :: nodes)) chars rest trees
  | absent {child : Node} {rest : List Char} (misses : Misses child rest) :
      Yields source (.repeated child (.fixed 0) (some (.fixed 1))) [] rest []
  | present {child : Node} {chars rest : List Char} {trees : List Tree}
      (once : Yields source child chars rest trees) :
      Yields source (.repeated child (.fixed 0) (some (.fixed 1))) chars rest trees
  | stop {child : Node} {rest : List Char} (misses : Misses child rest) :
      Yields source (.repeated child (.fixed 0) none) [] rest []
  -- A repetition also stops behind an empty match.
  | idle {child : Node} {rest : List Char} {least : UInt32} {trees : List Tree}
      (once : Yields source child [] rest trees) :
      Yields source (.repeated child (.fixed least) none) [] rest trees
  | again {child : Node} {left right rest : List Char} {least : UInt32}
      {before behind : List Tree} (head : Yields source child left (right ++ rest) before)
      (tail : Yields source (.repeated child (.fixed 0) none) right rest behind) :
      Yields source (.repeated child (.fixed least) none) (left ++ right) rest (before ++ behind)
  | notAhead {child : Node} {rest : List Char} (misses : Misses child rest) :
      Yields source (.lookahead child false) [] rest []

/-- What a task of the dialect leaves, a repetition read from its start on. -/
def TaskYields (source : List Char) (chars rest : List Char) (trees : List Tree) : Task → Prop
  | .node node => node.isPlain = true → Yields source node chars rest trees
  | .repetition child least none =>
      child.isPlain = true → least ≤ 1 → ∀ count : UInt32, count.toNat = least →
        Yields source (.repeated child (.fixed count) none) chars rest trees
  | .repetition _ _ (some 0) => chars = [] ∧ trees = []
  | .repetition child least (some 1) =>
      child.isPlain = true → least = 0 →
        Yields source (.repeated child (.fixed 0) (some (.fixed 1))) chars rest trees
  | .repetition _ _ (some _) => True

namespace TaskYields

variable {child : Node} {least : ℕ} {most : Option ℕ} {left right rest : List Char}
  {before behind : List Tree}

private theorem exhausted (unfilled : most ≠ some 0) (none : least = 0)
    (misses : Misses child rest) :
    TaskYields source [] rest [] (.repetition child least most) := by
  subst none
  rcases most with _ | _ | _ | most
  · intro _ _ count zero
    obtain rfl : count = 0 := UInt32.toNat_inj.mp zero
    exact .stop misses
  · exact absurd rfl unfilled
  · exact fun _ _ => .absent misses
  · trivial

private theorem again (unfilled : most ≠ some 0)
    (head : TaskYields source left (right ++ rest) before (.node child))
    (tail : TaskYields source right rest behind
      (.repetition child (least - 1) (most.map (· - 1)))) :
    TaskYields source (left ++ right) rest (before ++ behind) (.repetition child least most) := by
  rcases most with _ | _ | _ | most
  · intro plain atMost count _
    exact .again (head plain) (tail plain (by omega) 0 (by simp; omega))
  · exact absurd rfl unfilled
  · intro plain _
    obtain ⟨rfl, rfl⟩ := tail
    rw [List.append_nil, List.append_nil]
    exact .present (head plain)
  · trivial

end TaskYields

private theorem chars_eq_of_spans {first last : Cursor} {chars : List Char}
    (spans : first.Spans chars last) (same : last = first) : chars = [] := by
  subst same
  exact List.append_cancel_right (spans.1.symm.trans (List.nil_append _).symm)

theorem mem_rules_of_get? {name : String} {production : Production}
    (found : grammar.get? name = some production) :
    (name, production.body) ∈ rules ∧ production.formals = [] := by
  obtain ⟨before, behind, split, -⟩ := List.lookup_eq_some_iff.mp found
  have member : (name, production) ∈ grammar.entries := by simp [split]
  rw [entries_grammar] at member
  obtain ⟨⟨label, body⟩, among, same⟩ := List.mem_map.mp member
  obtain ⟨rfl, rfl⟩ := Prod.mk.inj same
  exact ⟨among, rfl⟩

/-- A derivation splits what it matches along its expression. -/
theorem yields_of_derives {depth : ℕ∞} {production : String} {task : Task} {parameters : Parameters}
    {first last : Cursor} {chars : List Char} {trees : List Tree}
    (derives : Derives grammar depth production task parameters first (.matched trees last))
    (bare : parameters = .empty) (spans : first.Spans chars last) :
    TaskYields first.whole chars last.rest trees task := by
  generalize result : Outcome.matched trees last = outcome at derives
  induction derives generalizing trees last chars with
  | empty =>
      cases result
      intro _
      rw [chars_eq_of_spans spans rfl]
      exact .empty
  | sequenceNil =>
      cases result
      intro _
      rw [chars_eq_of_spans spans rfl]
      exact .nil
  | endOfInput =>
      obtain ⟨ends, rfl, rfl⟩ := Outcome.check_eq_matched_iff.mp result.symm
      intro _
      rw [chars_eq_of_spans spans rfl, List.isEmpty_iff.mp ends]
      exact .endOfInput
  | literal spelled =>
      cases result
      intro _
      rw [spans.chars_unique spelled]
      exact .literal
  | chars spelled member =>
      cases result
      intro _
      rw [spans.chars_unique spelled]
      exact .chars member
  | reference nests found counts binds body induction =>
      obtain ⟨content, rfl, rfl⟩ := Outcome.enclose_eq_matched_iff.mp result.symm
      obtain ⟨member, none⟩ := mem_rules_of_get? found
      intro plain
      obtain rfl := List.isEmpty_iff.mp plain
      subst bare
      have whole := Derives.reference nests found counts binds body
      rw [none] at binds
      cases binds
      exact .call member rfl spans.slice?_eq ⟨_, _, _, _, _, whole, spans, rfl⟩
        (induction rfl spans rfl (isPlain_of_mem member))
  | sequenceCons head tail inductionHead inductionTail =>
      obtain ⟨more, rfl, rfl⟩ := Outcome.prepend_eq_matched_iff.mp result.symm
      obtain ⟨left, spansLeft⟩ := head.exists_spans
      obtain ⟨right, spansRight⟩ := tail.exists_spans
      obtain rfl := spans.chars_unique (spansLeft.trans spansRight)
      intro plain
      obtain ⟨plainHead, plainTail⟩ := Bool.and_eq_true_iff.mp plain
      have before := inductionHead bare spansLeft rfl plainHead
      have behind := inductionTail bare spansRight rfl plainTail
      rw [spansRight.1] at before
      rw [spansLeft.whole_eq] at behind
      exact .cons before behind
  | firstNext head _ _ induction =>
      intro plain
      obtain ⟨-, plainTail⟩ := Bool.and_eq_true_iff.mp plain
      subst bare
      have misses := misses_of_derives head
      rw [spans.1] at misses
      exact .firstNext misses (induction rfl spans result plainTail)
  | firstStop _ _ induction =>
      intro plain
      exact .firstHead (induction bare spans result (Bool.and_eq_true_iff.mp plain).1)
  | bounded atLeast atMost _ induction =>
      intro plain
      obtain ⟨plainChild, form⟩ := Bool.and_eq_true_iff.mp plain
      simp only [List.mem_cons, Prod.mk.injEq, reduceCtorEq, and_false, or_false,
        List.not_mem_nil, Option.some.injEq, decide_eq_true_eq] at form
      obtain ⟨rfl, rfl⟩ := form
      cases atLeast
      cases atMost
      exact induction bare spans result plainChild rfl
  | unbounded atLeast _ induction =>
      intro plain
      obtain ⟨plainChild, form⟩ := Bool.and_eq_true_iff.mp plain
      simp only [List.mem_cons, Prod.mk.injEq, reduceCtorEq, and_false, false_or, and_true,
        List.not_mem_nil, or_false, decide_eq_true_eq] at form
      rcases form with rfl | rfl <;> cases atLeast
      · exact induction bare spans result plainChild (Nat.zero_le 1) 0 rfl
      · exact induction bare spans result plainChild le_rfl 1 rfl
  | lookaheadUnmatched inside _ =>
      obtain ⟨sign, rfl, rfl⟩ := Outcome.check_eq_matched_iff.mp result.symm
      intro plain
      rw [chars_eq_of_spans spans rfl]
      obtain rfl : _ = false := by simpa using sign
      subst bare
      exact .notAhead (misses_of_derives inside)
  | lookaheadMatched _ _ =>
      obtain ⟨sign, rfl, rfl⟩ := Outcome.check_eq_matched_iff.mp result.symm
      intro plain
      rw [sign] at plain
      cases plain
  | full =>
      obtain ⟨-, rfl, rfl⟩ := Outcome.check_eq_matched_iff.mp result.symm
      exact ⟨chars_eq_of_spans spans rfl, rfl⟩
  | exhausted unfilled inside _ =>
      obtain ⟨none, rfl, rfl⟩ := Outcome.check_eq_matched_iff.mp result.symm
      subst bare
      rw [chars_eq_of_spans spans rfl]
      exact .exhausted unfilled (of_decide_eq_true none) (misses_of_derives inside)
  | zeroWidth inside induction =>
      obtain ⟨more, ends, rfl⟩ := Outcome.prepend_eq_matched_iff.mp result.symm
      obtain ⟨-, rfl, rfl⟩ := Outcome.check_eq_matched_iff.mp ends
      intro plain _ count _
      rw [chars_eq_of_spans spans rfl, List.append_nil]
      exact .idle (induction bare (.refl _) rfl plain)
  | again unfilled inside _ more inductionHead inductionTail =>
      obtain ⟨later, rfl, rfl⟩ := Outcome.prepend_eq_matched_iff.mp result.symm
      obtain ⟨left, spansLeft⟩ := inside.exists_spans
      obtain ⟨right, spansRight⟩ := more.exists_spans
      obtain rfl := spans.chars_unique (spansLeft.trans spansRight)
      have head := inductionHead bare spansLeft rfl
      have tail := inductionTail bare spansRight rfl
      rw [spansRight.1] at head
      rw [spansLeft.whole_eq] at tail
      exact .again unfilled head tail
  | sequenceStop _ stops | lookbehindStop _ _ stops =>
      subst result
      simp at stops
  | startOfLine | lookbehindMatched _ _ _ | indentation _ _ _ _ _ | covered _ _ _
  | otherCase _ _ _ => exact fun plain => absurd plain (by simp [Node.isPlain])
  | _ => cases result

/-! ### Looking into matches -/

variable {node : Node} {nodes : List Node} {name text : String} {body child : Node}
  {chars rest : List Char} {trees : List Tree}

@[simp] theorem yields_literal :
    Yields source (.literal text) chars rest trees ↔ chars = text.toList ∧ trees = [] := by
  constructor
  · rintro ⟨⟩
    exact ⟨rfl, rfl⟩
  · rintro ⟨rfl, rfl⟩
    exact .literal

@[simp] theorem yields_chars {set : CharSet} :
    Yields source (.chars set) chars rest trees ↔
      ∃ char, set.contains char = true ∧ chars = [char] ∧ trees = [] := by
  constructor
  · rintro ⟨⟩
    exact ⟨_, ‹_›, rfl, rfl⟩
  · rintro ⟨char, member, rfl, rfl⟩
    exact .chars member

@[simp] theorem yields_sequence_nil :
    Yields source (.sequence []) chars rest trees ↔ chars = [] ∧ trees = [] := by
  constructor
  · rintro ⟨⟩
    exact ⟨rfl, rfl⟩
  · rintro ⟨rfl, rfl⟩
    exact .nil

@[simp] theorem yields_sequence_cons :
    Yields source (.sequence (node :: nodes)) chars rest trees ↔
      ∃ left right before behind, chars = left ++ right ∧ trees = before ++ behind ∧
        Yields source node left (right ++ rest) before ∧
          Yields source (.sequence nodes) right rest behind := by
  constructor
  · rintro ⟨⟩
    exact ⟨_, _, _, _, rfl, rfl, ‹_›, ‹_›⟩
  · rintro ⟨left, right, before, behind, rfl, rfl, head, tail⟩
    exact .cons head tail

@[simp] theorem yields_first_nil : ¬ Yields source (.first []) chars rest trees := by
  rintro ⟨⟩

@[simp] theorem yields_first_cons :
    Yields source (.first (node :: nodes)) chars rest trees ↔
      Yields source node chars rest trees ∨
        Misses node (chars ++ rest) ∧ Yields source (.first nodes) chars rest trees := by
  constructor
  · rintro (_ | _)
    · exact .inl ‹_›
    · exact .inr ⟨‹_›, ‹_›⟩
  · rintro (chosen | ⟨misses, later⟩)
    · exact .firstHead chosen
    · exact .firstNext misses later

@[simp] theorem yields_optional :
    Yields source (.optional child) chars rest trees ↔
      Yields source child chars rest trees ∨ Misses child rest ∧ chars = [] ∧ trees = [] := by
  constructor
  · rintro (_ | _)
    · exact .inr ⟨‹_›, rfl, rfl⟩
    · exact .inl ‹_›
  · rintro (once | ⟨misses, rfl, rfl⟩)
    · exact .present once
    · exact .absent misses

@[simp] theorem yields_notAhead :
    Yields source (.notAhead child) chars rest trees ↔
      Misses child rest ∧ chars = [] ∧ trees = [] := by
  constructor
  · rintro ⟨⟩
    exact ⟨‹_›, rfl, rfl⟩
  · rintro ⟨misses, rfl, rfl⟩
    exact .notAhead misses

theorem Yields.inside (member : (name, body) ∈ rules)
    (yields : Yields source (.call name) chars rest trees) :
    ∃ tree, trees = [tree] ∧ tree.name = name ∧ slice? source tree.start tree.stop = some chars ∧
      Yields source body chars rest tree.content := by
  cases yields with
  | call among named written matched inside =>
      have same := (get?_of_mem member).symm.trans (get?_of_mem among)
      simp only [Option.some.injEq, Production.mk.injEq, true_and] at same
      exact ⟨_, rfl, named, written, same ▸ inside⟩

theorem Yields.matched (yields : Yields source (.call name) chars rest trees) :
    Matched (.call name) chars rest := by
  cases yields
  assumption

/-- What a repetition does, from its end on. -/
theorem Yields.repetition {least : UInt32} {motive : List Char → List Char → List Tree → Prop}
    (stop : ∀ rest, Misses child rest → motive [] rest [])
    (idle : ∀ rest trees, Yields source child [] rest trees → motive [] rest trees)
    (again : ∀ left right rest before behind, Yields source child left (right ++ rest) before →
      motive right rest behind → motive (left ++ right) rest (before ++ behind))
    (yields : Yields source (.repeated child (.fixed least) none) chars rest trees) :
    motive chars rest trees := by
  generalize same : Node.repeated child (.fixed least) none = node at yields
  induction yields generalizing least with
  | stop misses =>
      cases same
      exact stop _ misses
  | idle once =>
      cases same
      exact idle _ _ once
  | again head _ _ induction =>
      cases same
      exact again _ _ _ _ _ head (induction rfl)
  | _ => cases same

theorem Yields.repetition_chars {least : UInt32} {holds : Char → Prop}
    (each : ∀ chars rest trees, Yields source child chars rest trees → ∀ char ∈ chars, holds char)
    (yields : Yields source (.repeated child (.fixed least) none) chars rest trees) :
    ∀ char ∈ chars, holds char := by
  refine yields.repetition (motive := fun chars _ _ => ∀ char ∈ chars, holds char) ?_ ?_ ?_
  · exact fun _ _ _ member => absurd member List.not_mem_nil
  · exact fun _ _ _ _ member => absurd member List.not_mem_nil
  · intro left right rest before behind head tail char member
    rcases List.mem_append.mp member with member | member
    · exact each _ _ _ head char member
    · exact tail char member

/-! ### Parsed trees -/

/-- A tree is that of a match of its production. -/
def Parsed (source : List Char) (tree : Tree) : Prop :=
  ∃ chars rest, Yields source (.call tree.name) chars rest [tree]

theorem Yields.parsed (yields : Yields source node chars rest trees) :
    ∀ depth, ∀ entry ∈ Tree.preorderAll depth trees, Parsed source entry.2 := by
  induction yields with
  | call member named written matched inside induction =>
      rename_i name body chars rest tree
      intro depth entry among
      obtain ⟨label, parameters, content, start, stop⟩ := tree
      simp only [Tree.preorderAll, Tree.preorder, List.append_nil, List.mem_cons] at among
      rcases among with rfl | among
      · subst named
        exact ⟨chars, rest, .call member rfl written matched inside⟩
      · exact induction _ entry among
  | cons _ _ inductionHead inductionTail | again _ _ inductionHead inductionTail =>
      intro depth entry among
      rw [Tree.preorderAll_append] at among
      rcases List.mem_append.mp among with among | among
      · exact inductionHead depth entry among
      · exact inductionTail depth entry among
  | firstHead _ induction | firstNext _ _ induction | present _ induction | idle _ induction =>
      exact induction
  | _ => exact fun _ _ among => absurd among List.not_mem_nil

private theorem mem_preorderAll {depth : ℕ} {tree : Tree} (member : tree ∈ trees) :
    (depth, tree) ∈ Tree.preorderAll depth trees := by
  induction trees with
  | nil => cases member
  | cons first trees induction =>
      rw [Tree.preorderAll, List.mem_append]
      rcases List.mem_cons.mp member with rfl | later
      · cases tree
        exact .inl List.mem_cons_self
      · exact .inr (induction later)

/-- What a parsed tree covers and holds is what its production yields. -/
theorem Parsed.yields {tree : Tree} (parsed : Parsed source tree) (kind : tree.name = name)
    (found : rules.lookup name = some body) :
    ∃ chars rest, slice? source tree.start tree.stop = some chars ∧
      Matched (.call name) chars rest ∧ Yields source body chars rest tree.content := by
  obtain ⟨before, behind, split, -⟩ := List.lookup_eq_some_iff.mp found
  have member : (name, body) ∈ rules := by simp [split]
  obtain ⟨chars, rest, yields⟩ := parsed
  rw [kind] at yields
  obtain ⟨_, same, -, written, inside⟩ := yields.inside member
  obtain rfl := (List.cons.inj same).1
  exact ⟨chars, rest, written, yields.matched, inside⟩

/-- The parts of a parsed tree are parsed. -/
theorem Parsed.part {tree part : Tree} (parsed : Parsed source tree)
    (member : part ∈ tree.content) : Parsed source part := by
  obtain ⟨chars, rest, yields⟩ := parsed
  refine yields.parsed 0 (1, part) ?_
  cases tree
  simp only [Tree.preorderAll, Tree.preorder, List.append_nil, List.mem_cons]
  exact .inr (mem_preorderAll member)

end Dialect

end Bnf

end ParametricGrammar
