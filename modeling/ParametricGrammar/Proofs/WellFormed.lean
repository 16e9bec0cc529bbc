import ParametricGrammar.Proofs.Histories
/-!
# Well-formed parse trees

Every node of a parse tree names a production, binds exactly its formals, and covers a range between
character boundaries that holds the ranges of its children one behind the other. Its children are
those that its production's body contributes on the way that the match went.
-/

namespace ParametricGrammar

/-! ### Bound parameters -/

/-- Binding a formal binds it to the value and leaves the others as they are. -/
theorem Parameters.get?_bind {parameters result : Parameters} {formal : Formal} {value : Value}
    (binds : parameters.bind formal value = .ok result) (other : Formal) :
    result.get? other = if other = formal then some value else parameters.get? other := by
  cases formal <;> cases value <;> cases binds <;> cases other <;> simp [get?]

private theorem isSome_get?_bindArguments {caller name : String}
    {parameters bound result : Parameters} {formals : List Formal} {arguments : List Binding}
    (counts : arguments.length = formals.length)
    (binds : bindArguments caller name parameters formals arguments bound = .ok result)
    (other : Formal) :
    (result.get? other).isSome = true ↔ other ∈ formals ∨ (bound.get? other).isSome = true := by
  induction formals generalizing arguments bound with
  | nil =>
      obtain rfl := List.length_eq_zero_iff.mp counts
      cases binds
      simp
  | cons formal formals induction =>
      cases arguments with
      | nil => simp at counts
      | cons argument arguments =>
          rw [bindArguments] at binds
          cases resolved : argument.resolve parameters with
          | error cause => simp [resolved] at binds
          | ok value =>
              cases step : bound.bind formal value with
              | error cause => simp [resolved, step] at binds
              | ok next =>
                  simp only [resolved, step] at binds
                  rw [induction (by simpa using counts) binds, Parameters.get?_bind step other,
                    List.mem_cons]
                  split <;> simp_all

/-- A call binds the formals of its production and no others. -/
theorem isSome_get?_iff_of_call {caller name : String} {parameters bound : Parameters}
    {called : Production} {arguments : List Binding}
    (counts : arguments.length = called.formals.length)
    (binds : bindArguments caller name parameters called.formals arguments .empty = .ok bound)
    (formal : Formal) : (bound.get? formal).isSome = true ↔ formal ∈ called.formals := by
  rw [isSome_get?_bindArguments counts binds]
  cases formal <;> simp [Parameters.empty, Parameters.get?]

/-! ### Contributions -/

namespace Node

/-- Whether a match of an expression leaves no trees behind, whatever is evaluated inside. -/
def isSilent : Node → Bool
  | .empty | .startOfLine | .endOfInput | .literal _ | .chars _ => true
  | .lookahead _ _ | .lookbehind _ => true
  | .reference _ _ | .sequence _ | .first _ | .repeated _ _ _ | .detectIndentation _ _
  | .cases _ => false

/-- The trees that a match of an expression may leave behind: one for a reference, those of one
alternative for a choice, and none for a lookahead or lookbehind. -/
inductive Contributes : Node → List Tree → Prop where
  | silent {node : Node} (silent : node.isSilent = true) : Contributes node []
  | reference {name : String} {arguments : List Binding} {tree : Tree} (named : tree.name = name) :
      Contributes (.reference name arguments) [tree]
  | sequenceNil : Contributes (.sequence []) []
  | sequenceCons {node : Node} {rest : List Node} {nodes more : List Tree}
      (head : Contributes node nodes) (tail : Contributes (.sequence rest) more) :
      Contributes (.sequence (node :: rest)) (nodes ++ more)
  | first {node : Node} {children : List Node} {nodes : List Tree} (member : node ∈ children)
      (chosen : Contributes node nodes) : Contributes (.first children) nodes
  | repeatedNil {child : Node} {minimum : Bound} {maximum : Option Bound} :
      Contributes (.repeated child minimum maximum) []
  | repeatedCons {child : Node} {minimum : Bound} {maximum : Option Bound}
      {nodes more : List Tree} (head : Contributes child nodes)
      (tail : Contributes (.repeated child minimum maximum) more) :
      Contributes (.repeated child minimum maximum) (nodes ++ more)
  | indentation {minimum : Binding} {child : Node} {nodes : List Tree}
      (inside : Contributes child nodes) :
      Contributes (.detectIndentation minimum child) nodes
  | arm {pattern : Parameters} {body : Node} {arms : List (Parameters × Node)}
      {nodes : List Tree} (member : (pattern, body) ∈ arms) (inside : Contributes body nodes) :
      Contributes (.cases arms) nodes

private theorem Contributes.first_cons {node : Node} {rest : List Node} {nodes : List Tree}
    (later : Contributes (.first rest) nodes) : Contributes (.first (node :: rest)) nodes := by
  cases later with
  | silent silent => simp [isSilent] at silent
  | first member chosen => exact .first (List.mem_cons_of_mem _ member) chosen

private theorem Contributes.cases_cons {arm : Parameters × Node} {rest : List (Parameters × Node)}
    {nodes : List Tree} (later : Contributes (.cases rest) nodes) :
    Contributes (.cases (arm :: rest)) nodes := by
  cases later with
  | silent silent => simp [isSilent] at silent
  | arm member inside => exact .arm (List.mem_cons_of_mem _ member) inside

end Node

/-- The trees that what is evaluated may leave behind. -/
def Task.Contributes (task : Task) (nodes : List Tree) : Prop :=
  match task with
  | .node expression => expression.Contributes nodes
  | .repetition child _ _ =>
      ∀ minimum maximum, (Node.repeated child minimum maximum).Contributes nodes

private theorem Derives.contributes {grammar : Grammar} {depth : ℕ∞} {production : String}
    {task : Task} {parameters : Parameters} {cursor stop : Cursor} {nodes : List Tree}
    (derives : Derives grammar depth production task parameters cursor (.matched nodes stop)) :
    task.Contributes nodes := by
  generalize result : Outcome.matched nodes stop = outcome at derives
  induction derives generalizing nodes stop with
  | empty | literal _ | chars _ _ | lookbehindMatched _ _ _ =>
      cases result
      exact Node.Contributes.silent rfl
  | startOfLine | endOfInput | lookaheadMatched _ _ | lookaheadUnmatched _ _ =>
      obtain ⟨-, rfl, -⟩ := Outcome.check_eq_matched_iff.mp result.symm
      exact Node.Contributes.silent rfl
  | reference _ _ _ _ _ _ =>
      obtain ⟨content, -, rfl⟩ := Outcome.enclose_eq_matched_iff.mp result.symm
      exact Node.Contributes.reference rfl
  | sequenceNil =>
      cases result
      exact Node.Contributes.sequenceNil
  | sequenceCons _ _ inductionHead inductionTail =>
      obtain ⟨more, rfl, rfl⟩ := Outcome.prepend_eq_matched_iff.mp result.symm
      exact Node.Contributes.sequenceCons (inductionHead rfl) (inductionTail rfl)
  | firstNext _ _ _ induction => exact Node.Contributes.first_cons (induction result)
  | firstStop _ _ induction => exact Node.Contributes.first List.mem_cons_self (induction result)
  | bounded _ _ _ induction | unbounded _ _ induction => exact induction result _ _
  | indentation _ _ _ _ induction => exact Node.Contributes.indentation (induction result)
  | covered _ _ induction => exact Node.Contributes.arm List.mem_cons_self (induction result)
  | otherCase _ _ induction => exact Node.Contributes.cases_cons (induction result)
  | full | exhausted _ _ _ =>
      obtain ⟨-, rfl, -⟩ := Outcome.check_eq_matched_iff.mp result.symm
      exact fun _ _ => Node.Contributes.repeatedNil
  | zeroWidth _ induction =>
      obtain ⟨more, ends, rfl⟩ := Outcome.prepend_eq_matched_iff.mp result.symm
      obtain ⟨-, rfl, -⟩ := Outcome.check_eq_matched_iff.mp ends
      exact fun _ _ => Node.Contributes.repeatedCons (induction rfl) .repeatedNil
  | again _ _ _ _ inductionHead inductionTail =>
      obtain ⟨more, rfl, rfl⟩ := Outcome.prepend_eq_matched_iff.mp result.symm
      exact fun minimum maximum =>
        Node.Contributes.repeatedCons (inductionHead rfl) (inductionTail rfl minimum maximum)
  | sequenceStop _ stops | lookbehindStop _ _ stops =>
      subst result
      simp at stops
  | _ => cases result

/-! ### Ranges -/

/-- An offset between two characters of a text, or at one of its ends. -/
def IsBoundary (text : List Char) (offset : Nat) : Prop :=
  ∃ before rest, text = before ++ rest ∧ byteLength before = offset

theorem Cursor.isBoundary (cursor : Cursor) : IsBoundary cursor.whole cursor.offset :=
  ⟨cursor.before.reverse, cursor.rest, rfl, by simp [cursor.offset_eq]⟩

/-- What a node of a parse tree has to be. -/
structure Tree.WellFormed (grammar : Grammar) (text : List Char) (tree : Tree) : Prop where
  /-- The name is that of a production whose formals, and no others, are bound. Its body
  contributes the content, and derives it in the range that the node covers. -/
  production : ∃ production, grammar.get? tree.name = some production ∧
    (∀ formal, (tree.parameters.get? formal).isSome = true ↔ formal ∈ production.formals) ∧
    production.body.Contributes tree.content ∧
    ∃ first last : Cursor, first.whole = text ∧ first.offset = tree.start ∧
      last.offset = tree.stop ∧
      Derives grammar ⊤ tree.name (.node production.body) tree.parameters first
        (.matched tree.content last)
  start_boundary : IsBoundary text tree.start
  stop_boundary : IsBoundary text tree.stop
  start_le_stop : tree.start ≤ tree.stop
  stop_le : tree.stop ≤ byteLength text
  content_inside : ∀ child ∈ tree.content, tree.start ≤ child.start ∧ child.stop ≤ tree.stop
  content_apart : tree.content.Pairwise fun left right => left.stop ≤ right.start

/-- Trees that lie one behind the other between two offsets, with all their nodes well formed. -/
structure Placed (grammar : Grammar) (text : List Char) (first last : Nat)
    (nodes : List Tree) : Prop where
  inside : ∀ node ∈ nodes, first ≤ node.start ∧ node.stop ≤ last
  apart : nodes.Pairwise fun left right => left.stop ≤ right.start
  wellFormed : ∀ depth, ∀ entry ∈ Tree.preorderAll depth nodes, entry.2.WellFormed grammar text

theorem Tree.preorderAll_append (depth : Nat) (left right : List Tree) :
    Tree.preorderAll depth (left ++ right) =
      Tree.preorderAll depth left ++ Tree.preorderAll depth right := by
  induction left with
  | nil => rfl
  | cons tree left induction => simp [Tree.preorderAll, induction]

namespace Placed

variable {grammar : Grammar} {text : List Char} {first middle last : Nat} {nodes more : List Tree}

private theorem nil : Placed grammar text first last [] :=
  ⟨by simp, .nil, by simp [Tree.preorderAll]⟩

private theorem append (left : Placed grammar text first middle nodes)
    (right : Placed grammar text middle last more) (start : first ≤ middle)
    (stop : middle ≤ last) : Placed grammar text first last (nodes ++ more) where
  inside node member := by
    rcases List.mem_append.mp member with member | member
    · have := left.inside node member
      omega
    · have := right.inside node member
      omega
  apart := by
    refine List.pairwise_append.mpr ⟨left.apart, right.apart, fun before memberLeft behind
      memberRight => ?_⟩
    have := left.inside before memberLeft
    have := right.inside behind memberRight
    omega
  wellFormed depth entry member := by
    rw [Tree.preorderAll_append] at member
    rcases List.mem_append.mp member with member | member
    · exact left.wellFormed depth entry member
    · exact right.wellFormed depth entry member

private theorem singleton {tree : Tree} (wellFormed : tree.WellFormed grammar text)
    (content : Placed grammar text tree.start tree.stop tree.content) :
    Placed grammar text tree.start tree.stop [tree] where
  inside node member := by
    obtain rfl := List.mem_singleton.mp member
    exact ⟨le_rfl, le_rfl⟩
  apart := List.pairwise_singleton _ _
  wellFormed depth entry member := by
    obtain ⟨name, parameters, nodes, start, stop⟩ := tree
    simp only [Tree.preorderAll, Tree.preorder, List.append_nil, List.mem_cons] at member
    rcases member with rfl | member
    · exact wellFormed
    · exact content.wellFormed _ entry member

end Placed

/-- A successful call is a well-formed tree around a placed content. -/
theorem Tree.wellFormed_of_derives {grammar : Grammar} {depth : ℕ∞} {name caller : String}
    {called : Production} {arguments : List Binding} {parameters bound : Parameters}
    {first last : Cursor} {content : List Tree} (found : grammar.get? name = some called)
    (counts : arguments.length = called.formals.length)
    (binds : bindArguments caller name parameters called.formals arguments .empty = .ok bound)
    (body : Derives grammar depth name (.node called.body) bound first (.matched content last))
    (placed : Placed grammar first.whole first.offset last.offset content) :
    Tree.WellFormed grammar first.whole ⟨name, bound, content, first.offset, last.offset⟩ where
  production := by
    exact ⟨called, found, isSome_get?_iff_of_call counts binds, body.contributes, first, last, rfl,
      rfl, rfl, body.mono le_top⟩
  start_boundary := first.isBoundary
  stop_boundary := by
    rw [← body.whole_eq]
    exact last.isBoundary
  start_le_stop := body.offset_le
  stop_le := by
    rw [← body.whole_eq]
    exact last.offset_le_byteLength
  content_inside := placed.inside
  content_apart := placed.apart

/-- The trees of a match are well formed and lie one behind the other in the range it covers. -/
theorem Derives.placed {grammar : Grammar} {depth : ℕ∞} {production : String} {task : Task}
    {parameters : Parameters} {cursor stop : Cursor} {nodes : List Tree}
    (derives : Derives grammar depth production task parameters cursor (.matched nodes stop)) :
    Placed grammar cursor.whole cursor.offset stop.offset nodes := by
  have both : (∃ chars, cursor.Spans chars stop) ∧
      Placed grammar cursor.whole cursor.offset stop.offset nodes := by
    refine Derives.match_induction (motive := fun _ cursor nodes stop =>
      (∃ chars, cursor.Spans chars stop) ∧
        Placed grammar cursor.whole cursor.offset stop.offset nodes) ?_ ?_ ?_ derives
    · exact fun _ _ _ spans => ⟨spans, .nil⟩
    · rintro _ cursor nodes middle more stop ⟨⟨left, spansLeft⟩, before⟩
        ⟨⟨right, spansRight⟩, behind⟩
      rw [spansLeft.whole_eq] at behind
      have start : cursor.offset ≤ middle.offset := by
        rw [spansLeft.offset_eq]
        exact Nat.le_add_right _ _
      have ends : middle.offset ≤ stop.offset := by
        rw [spansRight.offset_eq]
        exact Nat.le_add_right _ _
      exact ⟨⟨left ++ right, spansLeft.trans spansRight⟩, before.append behind start ends⟩
    · rintro _ _ _ _ _ _ _ _ _ _ _ _ found counts binds body ⟨spans, placed⟩
      exact ⟨spans, .singleton (Tree.wellFormed_of_derives found counts binds body placed) placed⟩
  exact both.2

/-! ### Whole trees -/

/-- What a successful parse has derived within its limit: a call of the root that covers the whole
text. -/
theorem Setting.derives_depth_of_parseAll {setting : Setting} {root : String} {text : List Char}
    {tree : Tree} (parsed : (setting.parseAll root text).1 = .ok tree) :
    ∃ stop : Cursor, stop.whole = text ∧ stop.offset = byteLength text ∧
      Derives setting.grammar (setting.depth setting.limit) outside (.node (.call root)) .empty
        (.start text) (.matched [tree] stop) := by
  have answers := invoke_answers setting setting.limit outside root [] .empty
    (.start text) .fresh Memory.sound_fresh
  unfold parseAll at parsed
  match reply : setting.invoke setting.limit outside root [] .empty (.start text) .fresh with
  | (.unmatched, after) => simp [reply] at parsed
  | (.failed error, after) => simp [reply] at parsed
  | (.matched [] stop, after) => simp [reply] at parsed
  | (.matched (found :: more) stop, after) =>
      rw [reply] at answers parsed
      have derives := answers.derives
      simp only at parsed
      split at parsed
      · rename_i ends
        cases parsed
        have whole : stop.whole = text := derives.whole_eq
        have rest : stop.rest = [] := List.isEmpty_iff.mp ends
        refine ⟨stop, whole, ?_, ?_⟩
        · rw [← whole, Cursor.byteLength_whole, rest]
          rfl
        · cases derives.contributes with
          | reference named => exact derives
      · cases parsed

/-- A successful parse has derived a call of the root that covers the whole text. -/
theorem Setting.derives_of_parseAll {setting : Setting} {root : String} {text : List Char}
    {tree : Tree} (parsed : (setting.parseAll root text).1 = .ok tree) :
    ∃ stop : Cursor, stop.whole = text ∧ stop.offset = byteLength text ∧
      Derives setting.grammar ⊤ outside (.node (.call root)) .empty (.start text)
        (.matched [tree] stop) := by
  obtain ⟨stop, whole, ends, derives⟩ := derives_depth_of_parseAll parsed
  exact ⟨stop, whole, ends, derives.mono le_top⟩

/-- Every parse tree is well formed: the root is named as asked and covers the whole text, and
every node is what it has to be. -/
theorem Setting.parseAll_wellFormed {setting : Setting} {root : String} {text : List Char}
    {tree : Tree} (parsed : (setting.parseAll root text).1 = .ok tree) :
    (tree.name = root ∧ tree.start = 0 ∧ tree.stop = byteLength text) ∧
      ∀ entry ∈ tree.preorder 0, entry.2.WellFormed setting.grammar text := by
  obtain ⟨stop, whole, offset, derives⟩ := derives_of_parseAll parsed
  refine ⟨?_, fun entry member => ?_⟩
  · generalize result : Outcome.matched [tree] stop = outcome at derives
    cases derives <;> try cases result
    rename_i body
    obtain ⟨content, -, single⟩ := Outcome.enclose_eq_matched_iff.mp result.symm
    obtain rfl := (List.cons.inj single).1
    exact ⟨rfl, rfl, offset⟩
  · refine derives.placed.wellFormed 0 entry ?_
    simpa [Tree.preorderAll] using member

/-- Words of letters. An abandoned alternative and a lookahead call letters, too. -/
def Grammar.words : Grammar :=
  .ofList
    [ ("word",
        ⟨none, [],
          .first
            [ .sequence [.call "letter", .literal "!"],
              .sequence [.ahead (.call "letter"), .oneOrMore (.call "letter"), .endOfInput] ]⟩),
      ("letter", ⟨none, [], .chars (.ofRanges [⟨97, 122⟩])⟩) ]

/-- The tree of a word with two letters. -/
def Tree.word : Tree :=
  ⟨"word", .empty, [⟨"letter", .empty, [], 0, 1⟩, ⟨"letter", .empty, [], 1, 2⟩], 0, 2⟩

theorem Setting.wellFormed_word :
    (parseAll ⟨Grammar.words, false, 2⟩ "word" ['o', 'k']).1 = .ok Tree.word ∧
      (Tree.word.name = "word" ∧ Tree.word.start = 0 ∧
        Tree.word.stop = byteLength ['o', 'k']) ∧
      ∀ entry ∈ Tree.word.preorder 0, entry.2.WellFormed Grammar.words ['o', 'k'] :=
  ⟨rfl, parseAll_wellFormed
    (show (parseAll ⟨Grammar.words, false, 2⟩ "word" ['o', 'k']).1 = .ok Tree.word from rfl)⟩

end ParametricGrammar
