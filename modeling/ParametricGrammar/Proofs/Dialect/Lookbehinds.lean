import ParametricGrammar.Proofs.Dialect.ClauseTranslation
import ParametricGrammar.Proofs.Histories
/-!
# Operands of lookbehinds

A lookbehind looks at the one character before it, so a text is turned down unless the operand is
known to match one character. What is compiled keeps to that in every grammar where the productions
that the operand mentions do, also in one that puts others in their place.
-/

namespace ParametricGrammar

namespace Node

mutual

/-- The operands of the lookbehinds in an expression, at every depth. -/
def lookbehinds : Node → List Node
  | .empty | .startOfLine | .endOfInput | .literal _ | .chars _ | .reference _ _ => []
  | .sequence children | .first children => lookbehindsOfAll children
  | .repeated child _ _ | .lookahead child _ | .detectIndentation _ child => lookbehinds child
  | .lookbehind child => child :: lookbehinds child
  | .cases arms => lookbehindsOfArms arms

/-- The operands of the lookbehinds in the expressions of a list. -/
def lookbehindsOfAll : List Node → List Node
  | [] => []
  | node :: rest => lookbehinds node ++ lookbehindsOfAll rest

/-- The operands of the lookbehinds in the bodies of cases. -/
def lookbehindsOfArms : List (Parameters × Node) → List Node
  | [] => []
  | (_, body) :: rest => lookbehinds body ++ lookbehindsOfArms rest

end

private theorem lookbehindsOfAll_eq (nodes : List Node) :
    lookbehindsOfAll nodes = nodes.flatMap lookbehinds := by
  induction nodes with
  | nil => rfl
  | cons node nodes induction => rw [lookbehindsOfAll, induction, List.flatMap_cons]

private theorem lookbehindsOfArms_eq (arms : List (Parameters × Node)) :
    lookbehindsOfArms arms = arms.flatMap fun arm => arm.2.lookbehinds := by
  induction arms with
  | nil => rfl
  | cons arm arms induction => rw [lookbehindsOfArms, induction, List.flatMap_cons]

end Node

/-! ### Matches of one character -/

/-- Wherever an expression matches in a grammar, it matches one character: on every text, at every
offset, under all parameters and limits, with and without the cache, and whatever the session was
asked before. -/
def Grammar.MatchesOne (grammar : Grammar) (node : Node) : Prop :=
  ∀ (cached : Bool) (limit : Nat) (text : List Char) (earlier : List Query) (offset : Nat)
    (parameters : Parameters) (nodes : List Tree) (stop : Cursor),
    (((Session.fresh ⟨grammar, cached, limit⟩ text).after earlier).ask
        ⟨offset, parameters, node⟩).1 = .matched nodes stop →
      ∃ (place : Cursor) (char : Char), Cursor.at? text offset = some place ∧
        place.Spans [char] stop

/-- An expression matches one character if all matches that are derived for it do. -/
theorem Grammar.matchesOne_iff {grammar : Grammar} {node : Node} : grammar.MatchesOne node ↔
    ∀ (parameters : Parameters) (place : Cursor) (nodes : List Tree) (stop : Cursor),
      Derives grammar ⊤ outside (.node node) parameters place (.matched nodes stop) →
        ∃ char, place.Spans [char] stop := by
  constructor
  · intro one parameters place nodes stop derives
    obtain ⟨limit, finite⟩ := derives.exists_depth
    have reproduced := finite.reproduces ⟨grammar, true, limit⟩ limit le_rfl .fresh
      Memory.sound_fresh
    have located : Cursor.at? place.whole place.offset = some place :=
      Cursor.at?_eq_some_iff.mpr ⟨rfl, rfl⟩
    have matched : (((Session.fresh ⟨grammar, true, limit⟩ place.whole).after []).ask
        ⟨place.offset, parameters, node⟩).1 = .matched nodes stop := by
      simp only [Session.after, Session.ask, Session.parse, Setting.parse, Session.fresh, located]
      exact reproduced
    obtain ⟨other, char, found, spans⟩ := one _ _ _ _ _ _ _ _ matched
    obtain rfl := Option.some.inj (located.symm.trans found)
    exact ⟨char, spans⟩
  · intro derived cached limit text earlier offset parameters nodes stop matched
    have answer := ((Session.sound_fresh ⟨grammar, cached, limit⟩ text).after earlier).answer
      ⟨offset, parameters, node⟩
    rw [matched, Session.setting_after, Session.text_after] at answer
    cases answer.resolve_left (by simp) with
    | @place cursor _ whole located derives =>
        obtain ⟨char, spans⟩ := derived _ _ _ _ derives
        exact ⟨cursor, char, Cursor.at?_eq_some_iff.mpr ⟨whole, located⟩, spans⟩

namespace Derives

variable {grammar : Grammar} {depth : ℕ∞} {production : String} {parameters : Parameters}
  {cursor stop : Cursor} {nodes : List Tree}

/-- A choice matches as one of its alternatives. -/
theorem exists_of_first {children : List Node}
    (derives : Derives grammar depth production (.node (.first children)) parameters cursor
      (.matched nodes stop)) :
    ∃ child ∈ children,
      Derives grammar depth production (.node child) parameters cursor (.matched nodes stop) := by
  induction children with
  | nil => cases derives
  | cons child children induction =>
      cases derives with
      | firstNext _ tail =>
          obtain ⟨other, member, inside⟩ := induction tail
          exact ⟨other, .tail _ member, inside⟩
      | firstStop head _ => exact ⟨child, List.mem_cons_self, head⟩

/-- A row matches as its first part, and the others behind it. -/
theorem exists_of_sequence {head : Node} {rest : List Node}
    (derives : Derives grammar depth production (.node (.sequence (head :: rest))) parameters
      cursor (.matched nodes stop)) :
    ∃ first middle more,
      Derives grammar depth production (.node head) parameters cursor (.matched first middle) ∧
        Derives grammar depth production (.node (.sequence rest)) parameters middle
          (.matched more stop) := by
  generalize result : Outcome.matched nodes stop = outcome at derives
  cases derives with
  | @sequenceCons _ _ _ _ _ first middle _ _ head tail =>
      obtain ⟨more, rfl, -⟩ := Outcome.prepend_eq_matched_iff.mp result.symm
      exact ⟨first, middle, more, head, tail⟩
  | sequenceStop _ stops =>
      subst result
      simp at stops

/-- A lookahead stays where it is. -/
theorem stop_of_lookahead {child : Node} {positive : Bool}
    (derives : Derives grammar depth production (.node (.lookahead child positive)) parameters
      cursor (.matched nodes stop)) : stop = cursor := by
  generalize result : Outcome.matched nodes stop = outcome at derives
  cases derives with
  | lookaheadMatched | lookaheadUnmatched =>
      exact (Outcome.check_eq_matched_iff.mp result.symm).2.2
  | lookaheadFailed => cases result

/-- A call without arguments matches as the body of a production without formals. -/
theorem exists_of_call {name : String}
    (derives : Derives grammar depth production (.node (.call name)) parameters cursor
      (.matched nodes stop)) :
    ∃ called inner bound content, grammar.get? name = some called ∧ called.formals = [] ∧
      Derives grammar inner name (.node called.body) bound cursor (.matched content stop) := by
  generalize result : Outcome.matched nodes stop = outcome at derives
  cases derives with
  | reference _ found counts _ body =>
      obtain ⟨content, rfl, -⟩ := Outcome.enclose_eq_matched_iff.mp result.symm
      exact ⟨_, _, _, content, found, List.eq_nil_of_length_eq_zero counts.symm, body⟩
  | undefined | arity | unbound => cases result

/-- What stands behind guards matches where the whole does. -/
theorem exists_of_guards {guards : List Node} {last : Node}
    (negative : ∀ guard ∈ guards, ∃ node, guard = .notAhead node)
    (derives : Derives grammar depth production (.node (.sequence (guards ++ [last]))) parameters
      cursor (.matched nodes stop)) :
    ∃ nodes,
      Derives grammar depth production (.node last) parameters cursor (.matched nodes stop) := by
  induction guards generalizing nodes with
  | nil =>
      obtain ⟨first, middle, more, inside, tail⟩ := exists_of_sequence derives
      cases tail
      exact ⟨first, inside⟩
  | cons guard guards induction =>
      obtain ⟨⟨node, rfl⟩, others⟩ := List.forall_mem_cons.mp negative
      obtain ⟨first, middle, more, head, tail⟩ := exists_of_sequence derives
      obtain rfl := stop_of_lookahead head
      exact induction others tail

end Derives

namespace Bnf

open Dialect

/-! ### Operands -/

/-- An expression that is known to match one character does, if the productions that it mentions
do. -/
theorem Single.exists_spans {grammar : Grammar} {depth : ℕ∞} {production : String} {node : Node}
    (single : Single node)
    (calls : ∀ name ∈ node.references, ∀ (parameters : Parameters) (place : Cursor)
      (nodes : List Tree) (stop : Cursor),
      Derives grammar depth production (.node (.call name)) parameters place
        (.matched nodes stop) → ∃ char, place.Spans [char] stop)
    (parameters : Parameters) (place : Cursor) (nodes : List Tree) (stop : Cursor)
    (derives : Derives grammar depth production (.node node) parameters place
      (.matched nodes stop)) : ∃ char, place.Spans [char] stop := by
  induction single generalizing nodes with
  | literal char =>
      cases derives with
      | literal spans => exact ⟨char, by simpa using spans⟩
  | chars set =>
      cases derives with
      | chars spans _ => exact ⟨_, spans⟩
  | call name => exact calls name List.mem_cons_self _ _ _ _ derives
  | first all induction =>
      obtain ⟨child, member, inside⟩ := derives.exists_of_first
      exact induction child member
        (fun name mentioned => calls name (Node.mem_referencesOfAll member mentioned)) _ inside
  | @guarded guards last some negative single induction =>
      obtain ⟨nodes, inside⟩ := derives.exists_of_guards negative
      have member : last ∈ guards ++ [last] := List.mem_append_right _ (List.mem_singleton_self _)
      exact induction
        (fun name mentioned => calls name (Node.mem_referencesOfAll member mentioned)) _ inside

/-- Every lookbehind in a compiled expression has an operand that is known to match one
character. -/
theorem Compiled.single_of_mem_lookbehinds {node : Node} (compiled : Compiled node) :
    ∀ operand ∈ node.lookbehinds, Single operand := by
  induction compiled with
  | empty | startOfLine | endOfInput | literal | chars | reference =>
      intro operand member
      cases member
  | sequence _ _ induction | first _ _ induction =>
      intro operand member
      rw [Node.lookbehinds, Node.lookbehindsOfAll_eq] at member
      obtain ⟨child, among, inside⟩ := List.mem_flatMap.mp member
      exact induction child among operand inside
  | marked mark _ induction => cases mark <;> exact induction
  | counted _ _ induction => exact induction
  | lookahead _ induction => exact induction
  | lookbehind single _ induction => exact List.forall_mem_cons.mpr ⟨single, induction⟩

private theorem CompiledBody.single_of_mem_lookbehinds {formals : List Formal} {body : Node}
    (compiled : CompiledBody formals body) : ∀ operand ∈ body.lookbehinds, Single operand := by
  cases compiled with
  | plain compiled => exact compiled.single_of_mem_lookbehinds
  | cases _ _ _ each =>
      intro operand member
      rw [Node.lookbehinds, Node.lookbehindsOfArms_eq] at member
      obtain ⟨arm, among, inside⟩ := List.mem_flatMap.mp member
      exact (each arm among).2.single_of_mem_lookbehinds operand inside

/-- The check on operands of lookbehinds is sound. Every operand of a lookbehind in a grammar that a
text is compiled to matches one character, in every grammar in which each production without formals
that the operand mentions matches one character. -/
theorem lookbehinds_matchOne {text : String} {compiled : Grammar}
    (compiles : compile text = .ok compiled) :
    ∀ entry ∈ compiled.entries, ∀ operand ∈ entry.2.body.lookbehinds, ∀ grammar : Grammar,
      (∀ name ∈ operand.references, ∀ production, grammar.get? name = some production →
        production.formals = [] → grammar.MatchesOne (.call name)) →
      grammar.MatchesOne operand := by
  intro entry member operand inside grammar calls
  have single := (compiledGrammar_of_compile compiles entry member).2.body.single_of_mem_lookbehinds
    operand inside
  refine Grammar.matchesOne_iff.mpr (single.exists_spans fun name mentioned parameters place nodes
    stop derives => ?_)
  obtain ⟨production, _, _, _, found, bare, -⟩ := derives.exists_of_call
  exact Grammar.matchesOne_iff.mp (calls name mentioned production found bare) _ _ _ _ derives

/-- A production matches one character if its body is known to on its own. -/
theorem matchesOne_call {grammar : Grammar} {name : String} {production : Production}
    (found : grammar.get? name = some production) (single : Single production.body)
    (closed : production.body.references = []) : grammar.MatchesOne (.call name) := by
  refine Grammar.matchesOne_iff.mpr fun parameters place nodes stop derives => ?_
  obtain ⟨called, _, _, _, defined, -, body⟩ := derives.exists_of_call
  obtain rfl := Option.some.inj (found.symm.trans defined)
  exact single.exists_spans (by simp [closed]) _ _ _ _ body

/-- A lookbehind that mentions another production. -/
def afterText : String :=
  "after ::= [ lookbehind = 'q' | letter - 'x' ] 'z'\nletter ::= ['a'-'y']\n"

/-- The operand of this lookbehind. -/
def letterOperand : Node :=
  .first [.literal "q", .sequence [.notAhead (.literal "x"), .call "letter"]]

/-- The body of the production with this lookbehind. -/
def afterBody : Node := .sequence [.lookbehind letterOperand, .literal "z"]

/-- The grammar of this text. -/
def afterGrammar : Grammar :=
  .ofList
    [ ("after", { body := afterBody }),
      ("letter", { body := .chars ⟨[⟨97, 121⟩]⟩ }) ]

/-- A grammar with other letters, two of them written as literals. -/
def greekGrammar : Grammar :=
  .ofList [("letter", { body := .first [.literal "α", .literal "β", .chars ⟨[⟨947, 969⟩]⟩] })]

theorem lookbehinds_matchOne_greek :
    compile afterText = .ok afterGrammar ∧
      ("after", ⟨none, [], afterBody⟩) ∈ afterGrammar.entries ∧
      letterOperand ∈ afterBody.lookbehinds ∧
      (∀ name ∈ letterOperand.references, ∀ production,
        greekGrammar.get? name = some production → production.formals = [] →
          greekGrammar.MatchesOne (.call name)) ∧
      greekGrammar.MatchesOne letterOperand := by
  have compiles : compile afterText = .ok afterGrammar := compile_of_uncached (by decide +kernel)
  have member : ("after", ⟨none, [], afterBody⟩) ∈ afterGrammar.entries := List.mem_cons_self
  have inside : letterOperand ∈ afterBody.lookbehinds := List.mem_cons_self
  have letters : greekGrammar.MatchesOne (.call "letter") := by
    refine matchesOne_call rfl (.first fun child member => ?_) rfl
    simp only [List.mem_cons, List.not_mem_nil, or_false] at member
    rcases member with rfl | rfl | rfl
    · exact .literal 'α'
    · exact .literal 'β'
    · exact .chars _
  have calls : ∀ name ∈ letterOperand.references, ∀ production,
      greekGrammar.get? name = some production → production.formals = [] →
        greekGrammar.MatchesOne (.call name) := by
    intro name mentioned production _ _
    obtain rfl := List.mem_singleton.mp mentioned
    exact letters
  exact ⟨compiles, member, inside, calls,
    lookbehinds_matchOne compiles _ member letterOperand inside greekGrammar calls⟩

end Bnf

end ParametricGrammar
