import Mathlib.Data.ENat.Basic
import ParametricGrammar.Matching.Session
import ParametricGrammar.Proofs.Places
/-!
# Big-step semantics of grammar expressions

The meaning of an expression is a relation between a place and an outcome, given by one set of
rules over the kinds of expressions. The rules know neither a memory of failures nor a limit on
nested calls; they only measure how deeply the calls of a derivation nest.
-/

namespace ParametricGrammar

namespace Outcome

/-- The empty match at a place if a condition holds, and no match otherwise. -/
def check (holds : Bool) (cursor : Cursor) : Outcome :=
  if holds then .matched [] cursor else .unmatched

/-- Whether an outcome is a match. -/
def isMatched : Outcome → Bool
  | .matched _ _ => true
  | .unmatched | .failed _ => false

/-- Puts the trees of an earlier match before those of an outcome. -/
def prepend (nodes : List Tree) : Outcome → Outcome
  | .matched more stop => .matched (nodes ++ more) stop
  | .unmatched => .unmatched
  | .failed error => .failed error

/-- The outcome of a call with a given outcome of its body: one tree around those of a match. -/
def enclose (call : Call) : Outcome → Outcome
  | .matched nodes stop =>
      .matched [⟨call.name, call.parameters, nodes, call.offset, stop.offset⟩] stop
  | .unmatched => .unmatched
  | .failed error => .failed error

@[simp] theorem prepend_nil (outcome : Outcome) : outcome.prepend [] = outcome := by
  cases outcome <;> rfl

@[simp] theorem prepend_prepend (left right : List Tree) (outcome : Outcome) :
    (outcome.prepend right).prepend left = outcome.prepend (left ++ right) := by
  cases outcome <;> simp [prepend]

@[simp] theorem prepend_matched (nodes more : List Tree) (stop : Cursor) :
    (matched more stop).prepend nodes = .matched (nodes ++ more) stop := rfl

@[simp] theorem prepend_unmatched (nodes : List Tree) : unmatched.prepend nodes = .unmatched := rfl

@[simp] theorem prepend_failed (nodes : List Tree) (error : RunError) :
    (failed error).prepend nodes = .failed error := rfl

@[simp] theorem check_true (cursor : Cursor) : check true cursor = .matched [] cursor := rfl

@[simp] theorem check_false (cursor : Cursor) : check false cursor = .unmatched := rfl

@[simp] theorem isMatched_matched (nodes : List Tree) (stop : Cursor) :
    (matched nodes stop).isMatched = true := rfl

@[simp] theorem isMatched_unmatched : unmatched.isMatched = false := rfl

@[simp] theorem isMatched_failed (error : RunError) : (failed error).isMatched = false := rfl

theorem prepend_eq_matched_iff {nodes all : List Tree} {stop : Cursor} {outcome : Outcome} :
    outcome.prepend nodes = .matched all stop ↔
      ∃ more, outcome = .matched more stop ∧ all = nodes ++ more := by
  cases outcome <;> simp [eq_comm, and_comm]

theorem check_eq_matched_iff {holds : Bool} {nodes : List Tree} {cursor stop : Cursor} :
    check holds cursor = .matched nodes stop ↔ holds = true ∧ nodes = [] ∧ stop = cursor := by
  cases holds <;> simp [eq_comm]

theorem enclose_eq_matched_iff {call : Call} {nodes : List Tree} {stop : Cursor}
    {outcome : Outcome} :
    outcome.enclose call = .matched nodes stop ↔
      ∃ content, outcome = .matched content stop ∧
        nodes = [⟨call.name, call.parameters, content, call.offset, stop.offset⟩] := by
  cases outcome <;> simp only [enclose, matched.injEq, reduceCtorEq, false_and, exists_false]
  constructor
  · rintro ⟨rfl, rfl⟩
    exact ⟨_, ⟨rfl, rfl⟩, rfl⟩
  · rintro ⟨content, ⟨rfl, rfl⟩, rfl⟩
    exact ⟨rfl, rfl⟩

@[simp] theorem check_ne_failed (holds : Bool) (cursor : Cursor) (error : RunError) :
    check holds cursor ≠ .failed error := by
  cases holds <;> simp

@[simp] theorem prepend_eq_failed_iff {nodes : List Tree} {outcome : Outcome} {error : RunError} :
    outcome.prepend nodes = .failed error ↔ outcome = .failed error := by
  cases outcome <;> simp

@[simp] theorem enclose_eq_failed_iff {call : Call} {outcome : Outcome} {error : RunError} :
    outcome.enclose call = .failed error ↔ outcome = .failed error := by
  cases outcome <;> simp [enclose]

end Outcome

/-- What is evaluated: an expression, or what is left of a repetition. -/
inductive Task where
  | node (node : Node)
  /-- At least and at most so many further matches of an expression. -/
  | repetition (child : Node) (least : Nat) (most : Option Nat)

/-- The rules of evaluation in a grammar, in the body of a production.

Calls nest at most as deeply as `depth` says; `⊤` sets no bound. -/
inductive Derives (grammar : Grammar) :
    (depth : ℕ∞) → (production : String) → Task → Parameters → Cursor → Outcome → Prop where
  | empty {depth : ℕ∞} {production : String} {parameters : Parameters} {cursor : Cursor} :
      Derives grammar depth production (.node .empty) parameters cursor (.matched [] cursor)
  | startOfLine {depth : ℕ∞} {production : String} {parameters : Parameters} {cursor : Cursor} :
      Derives grammar depth production (.node .startOfLine) parameters cursor
        (.check cursor.startsLine cursor)
  | endOfInput {depth : ℕ∞} {production : String} {parameters : Parameters} {cursor : Cursor} :
      Derives grammar depth production (.node .endOfInput) parameters cursor
        (.check cursor.rest.isEmpty cursor)
  | literal {depth : ℕ∞} {production text : String} {parameters : Parameters} {cursor stop : Cursor}
      (spans : cursor.Spans text.toList stop) :
      Derives grammar depth production (.node (.literal text)) parameters cursor (.matched [] stop)
  | otherLiteral {depth : ℕ∞} {production text : String} {parameters : Parameters} {cursor : Cursor}
      (differs : ∀ stop, ¬ cursor.Spans text.toList stop) :
      Derives grammar depth production (.node (.literal text)) parameters cursor .unmatched
  | chars {char : Char} {depth : ℕ∞} {production : String} {parameters : Parameters}
      {cursor stop : Cursor} {set : CharSet}
      (spans : cursor.Spans [char] stop) (member : set.contains char = true) :
      Derives grammar depth production (.node (.chars set)) parameters cursor (.matched [] stop)
  | otherChars {depth : ℕ∞} {production : String} {parameters : Parameters} {cursor : Cursor}
      {set : CharSet}
      (differs : ∀ char stop, cursor.Spans [char] stop → set.contains char = false) :
      Derives grammar depth production (.node (.chars set)) parameters cursor .unmatched
  -- Calls: the production is looked up, arguments are counted and bound, then the body counts.
  | undefined {name : String} {depth : ℕ∞} {production : String} {arguments : List Binding}
      {parameters : Parameters} {cursor : Cursor} (missing : grammar.get? name = none) :
      Derives grammar depth production (.node (.reference name arguments)) parameters cursor
        (.failed (.undefinedProduction name production))
  | arity {name : String} {called : Production} {depth : ℕ∞} {production : String}
      {arguments : List Binding} {parameters : Parameters} {cursor : Cursor}
      (found : grammar.get? name = some called)
      (differ : arguments.length ≠ called.formals.length) :
      Derives grammar depth production (.node (.reference name arguments)) parameters cursor
        (.failed (.arityMismatch name called.formals.length arguments.length))
  | unbound {name : String} {called : Production} {production : String} {parameters : Parameters}
      {arguments : List Binding} {error : RunError} {depth : ℕ∞} {cursor : Cursor}
      (found : grammar.get? name = some called)
      (counts : arguments.length = called.formals.length)
      (fails : bindArguments production name parameters called.formals arguments .empty =
        .error error) :
      Derives grammar depth production (.node (.reference name arguments)) parameters cursor
        (.failed error)
  | reference {depth : ℕ∞} {name : String} {called : Production} {production : String}
      {parameters : Parameters} {arguments : List Binding} {bound : Parameters} {cursor : Cursor}
      {outcome : Outcome} {inner : ℕ∞}
      (nests : inner + 1 ≤ depth) (found : grammar.get? name = some called)
      (counts : arguments.length = called.formals.length)
      (binds : bindArguments production name parameters called.formals arguments .empty =
        .ok bound)
      (body : Derives grammar inner name (.node called.body) bound cursor outcome) :
      Derives grammar depth production (.node (.reference name arguments)) parameters cursor
        (outcome.enclose ⟨name, bound, cursor.offset⟩)
  | sequenceNil {depth : ℕ∞} {production : String} {parameters : Parameters} {cursor : Cursor} :
      Derives grammar depth production (.node (.sequence [])) parameters cursor
        (.matched [] cursor)
  | sequenceCons {depth : ℕ∞} {production : String} {node : Node} {parameters : Parameters}
      {cursor : Cursor} {nodes : List Tree} {stop : Cursor} {rest : List Node} {outcome : Outcome}
      (head : Derives grammar depth production (.node node) parameters cursor
        (.matched nodes stop))
      (tail : Derives grammar depth production (.node (.sequence rest)) parameters stop outcome) :
      Derives grammar depth production (.node (.sequence (node :: rest))) parameters cursor
        (outcome.prepend nodes)
  | sequenceStop {depth : ℕ∞} {production : String} {node : Node} {parameters : Parameters}
      {cursor : Cursor} {outcome : Outcome} {rest : List Node}
      (head : Derives grammar depth production (.node node) parameters cursor outcome)
      (stops : outcome.isMatched = false) :
      Derives grammar depth production (.node (.sequence (node :: rest))) parameters cursor
        outcome
  | firstNil {depth : ℕ∞} {production : String} {parameters : Parameters} {cursor : Cursor} :
      Derives grammar depth production (.node (.first [])) parameters cursor .unmatched
  | firstNext {depth : ℕ∞} {production : String} {node : Node} {parameters : Parameters}
      {cursor : Cursor} {rest : List Node} {outcome : Outcome}
      (head : Derives grammar depth production (.node node) parameters cursor .unmatched)
      (tail : Derives grammar depth production (.node (.first rest)) parameters cursor outcome) :
      Derives grammar depth production (.node (.first (node :: rest))) parameters cursor outcome
  | firstStop {depth : ℕ∞} {production : String} {node : Node} {parameters : Parameters}
      {cursor : Cursor} {outcome : Outcome} {rest : List Node}
      (head : Derives grammar depth production (.node node) parameters cursor outcome)
      (stops : outcome ≠ .unmatched) :
      Derives grammar depth production (.node (.first (node :: rest))) parameters cursor outcome
  | minimumUnbound {depth : ℕ∞} {production : String} {child : Node} {minimum : Bound}
      {maximum : Option Bound} {parameters : Parameters} {cursor : Cursor} {cause : ParameterError}
      (fails : minimum.resolve parameters = .error cause) :
      Derives grammar depth production (.node (.repeated child minimum maximum)) parameters
        cursor (.failed (.parameter production cause))
  | maximumUnbound {depth : ℕ∞} {production : String} {child : Node} {minimum maximum : Bound}
      {parameters : Parameters} {cursor : Cursor} {cause : ParameterError} {least : Nat}
      (atLeast : minimum.resolve parameters = .ok least)
      (fails : maximum.resolve parameters = .error cause) :
      Derives grammar depth production (.node (.repeated child minimum (some maximum)))
        parameters cursor (.failed (.parameter production cause))
  | bounded {depth : ℕ∞} {production : String} {child : Node} {least most : Nat}
      {parameters : Parameters} {cursor : Cursor} {outcome : Outcome} {minimum maximum : Bound}
      (atLeast : minimum.resolve parameters = .ok least)
      (atMost : maximum.resolve parameters = .ok most)
      (repeats : Derives grammar depth production (.repetition child least (some most))
        parameters cursor outcome) :
      Derives grammar depth production (.node (.repeated child minimum (some maximum)))
        parameters cursor outcome
  | unbounded {depth : ℕ∞} {production : String} {child : Node} {least : Nat}
      {parameters : Parameters} {cursor : Cursor} {outcome : Outcome} {minimum : Bound}
      (atLeast : minimum.resolve parameters = .ok least)
      (repeats : Derives grammar depth production (.repetition child least none) parameters
        cursor outcome) :
      Derives grammar depth production (.node (.repeated child minimum none)) parameters cursor
        outcome
  | lookaheadMatched {depth : ℕ∞} {production : String} {child : Node} {parameters : Parameters}
      {cursor : Cursor} {nodes : List Tree} {stop : Cursor} {positive : Bool}
      (inside : Derives grammar depth production (.node child) parameters cursor
        (.matched nodes stop)) :
      Derives grammar depth production (.node (.lookahead child positive)) parameters cursor
        (.check positive cursor)
  | lookaheadUnmatched {depth : ℕ∞} {production : String} {child : Node} {parameters : Parameters}
      {cursor : Cursor} {positive : Bool}
      (inside : Derives grammar depth production (.node child) parameters cursor .unmatched) :
      Derives grammar depth production (.node (.lookahead child positive)) parameters cursor
        (.check (!positive) cursor)
  | lookaheadFailed {depth : ℕ∞} {production : String} {child : Node} {parameters : Parameters}
      {cursor : Cursor} {error : RunError} {positive : Bool}
      (inside : Derives grammar depth production (.node child) parameters cursor
        (.failed error)) :
      Derives grammar depth production (.node (.lookahead child positive)) parameters cursor
        (.failed error)
  | lookbehindStart {depth : ℕ∞} {production : String} {child : Node} {parameters : Parameters}
      {cursor : Cursor} (starts : cursor.before = []) :
      Derives grammar depth production (.node (.lookbehind child)) parameters cursor .unmatched
  | lookbehindMatched {depth : ℕ∞} {production : String} {child : Node} {parameters : Parameters}
      {before : Cursor} {nodes : List Tree} {cursor : Cursor} {char : Char}
      (spans : before.Spans [char] cursor)
      (inside : Derives grammar depth production (.node child) parameters before
        (.matched nodes cursor)) :
      Derives grammar depth production (.node (.lookbehind child)) parameters cursor
        (.matched [] cursor)
  | lookbehindMissed {depth : ℕ∞} {production : String} {child : Node} {parameters : Parameters}
      {before : Cursor} {nodes : List Tree} {stop cursor : Cursor} {char : Char}
      (spans : before.Spans [char] cursor)
      (inside : Derives grammar depth production (.node child) parameters before
        (.matched nodes stop))
      (missed : stop ≠ cursor) :
      Derives grammar depth production (.node (.lookbehind child)) parameters cursor .unmatched
  | lookbehindStop {depth : ℕ∞} {production : String} {child : Node} {parameters : Parameters}
      {before : Cursor} {outcome : Outcome} {cursor : Cursor} {char : Char}
      (spans : before.Spans [char] cursor)
      (inside : Derives grammar depth production (.node child) parameters before outcome)
      (stops : outcome.isMatched = false) :
      Derives grammar depth production (.node (.lookbehind child)) parameters cursor outcome
  | indentationUnbound {depth : ℕ∞} {production : String} {minimum : Binding} {child : Node}
      {parameters : Parameters} {cursor : Cursor} {cause : ParameterError}
      (fails : minimum.resolveInt parameters = .error cause) :
      Derives grammar depth production (.node (.detectIndentation minimum child)) parameters
        cursor (.failed (.parameter production cause))
  | shallow {least : Int32} {depth : ℕ∞} {production : String} {minimum : Binding} {child : Node}
      {parameters : Parameters} {cursor : Cursor}
      (atLeast : minimum.resolveInt parameters = .ok least)
      (less : Int32.ofNat (min cursor.spacesAhead maxIndentation) < least) :
      Derives grammar depth production (.node (.detectIndentation minimum child)) parameters
        cursor .unmatched
  | indentation {detected least : Int32} {depth : ℕ∞} {production : String} {child : Node}
      {parameters : Parameters} {cursor : Cursor} {outcome : Outcome} {minimum : Binding}
      (atLeast : minimum.resolveInt parameters = .ok least)
      (detects : detected = Int32.ofNat (min cursor.spacesAhead maxIndentation))
      (enough : ¬ detected < least)
      (inside : Derives grammar depth production (.node child)
        { parameters with m := some detected } cursor outcome) :
      Derives grammar depth production (.node (.detectIndentation minimum child)) parameters
        cursor outcome
  | uncovered {depth : ℕ∞} {production : String} {parameters : Parameters} {cursor : Cursor} :
      Derives grammar depth production (.node (.cases [])) parameters cursor
        (.failed (.uncoveredContext production parameters))
  | covered {depth : ℕ∞} {production : String} {body : Node} {parameters : Parameters}
      {cursor : Cursor} {outcome : Outcome} {pattern : Parameters} {rest : List (Parameters × Node)}
      (satisfies : parameters.satisfies pattern = true)
      (inside : Derives grammar depth production (.node body) parameters cursor outcome) :
      Derives grammar depth production (.node (.cases ((pattern, body) :: rest))) parameters
        cursor outcome
  | otherCase {depth : ℕ∞} {production : String} {rest : List (Parameters × Node)}
      {parameters : Parameters} {cursor : Cursor} {outcome : Outcome} {pattern : Parameters}
      {body : Node} (satisfies : parameters.satisfies pattern = false)
      (later : Derives grammar depth production (.node (.cases rest)) parameters cursor outcome) :
      Derives grammar depth production (.node (.cases ((pattern, body) :: rest))) parameters
        cursor outcome
  -- Repetition is greedy. Without an upper bound it ends with an empty match.
  | full {depth : ℕ∞} {production : String} {child : Node} {least : Nat} {parameters : Parameters}
      {cursor : Cursor} :
      Derives grammar depth production (.repetition child least (some 0)) parameters cursor
        (.check (least = 0) cursor)
  | exhausted {most : Option Nat} {depth : ℕ∞} {production : String} {child : Node}
      {parameters : Parameters} {cursor : Cursor} {least : Nat} (unfilled : most ≠ some 0)
      (inside : Derives grammar depth production (.node child) parameters cursor .unmatched) :
      Derives grammar depth production (.repetition child least most) parameters cursor
        (.check (least = 0) cursor)
  | repetitionFailed {most : Option Nat} {depth : ℕ∞} {production : String} {child : Node}
      {parameters : Parameters} {cursor : Cursor} {error : RunError} {least : Nat}
      (unfilled : most ≠ some 0)
      (inside : Derives grammar depth production (.node child) parameters cursor
        (.failed error)) :
      Derives grammar depth production (.repetition child least most) parameters cursor
        (.failed error)
  | zeroWidth {depth : ℕ∞} {production : String} {child : Node} {parameters : Parameters}
      {cursor : Cursor} {nodes : List Tree} {least : Nat}
      (inside : Derives grammar depth production (.node child) parameters cursor
        (.matched nodes cursor)) :
      Derives grammar depth production (.repetition child least none) parameters cursor
        ((Outcome.check (least - 1 = 0) cursor).prepend nodes)
  | again {most : Option Nat} {depth : ℕ∞} {production : String} {child : Node}
      {parameters : Parameters} {cursor : Cursor} {nodes : List Tree} {stop : Cursor} {least : Nat}
      {outcome : Outcome} (unfilled : most ≠ some 0)
      (inside : Derives grammar depth production (.node child) parameters cursor
        (.matched nodes stop))
      (moves : most = none → stop ≠ cursor)
      (more : Derives grammar depth production
        (.repetition child (least - 1) (most.map (· - 1))) parameters stop outcome) :
      Derives grammar depth production (.repetition child least most) parameters cursor
        (outcome.prepend nodes)

namespace Derives

variable {grammar : Grammar} {depth : ℕ∞} {production : String} {task : Task}
  {parameters : Parameters} {cursor stop : Cursor} {outcome : Outcome} {nodes : List Tree}

/-- What holds of every match is shown by three rules: for matches without trees, for one match
behind another, and for a call around the match of its body. -/
theorem match_induction {motive : ℕ∞ → Cursor → List Tree → Cursor → Prop}
    (silent : ∀ depth cursor stop, (∃ chars, cursor.Spans chars stop) → motive depth cursor [] stop)
    (append : ∀ depth cursor nodes middle more stop, motive depth cursor nodes middle →
      motive depth middle more stop → motive depth cursor (nodes ++ more) stop)
    (call : ∀ depth inner caller parameters name arguments called bound cursor content stop,
      inner + 1 ≤ depth → grammar.get? name = some called →
      arguments.length = called.formals.length →
      bindArguments caller name parameters called.formals arguments .empty = .ok bound →
      Derives grammar inner name (.node called.body) bound cursor (.matched content stop) →
      motive inner cursor content stop →
      motive depth cursor [⟨name, bound, content, cursor.offset, stop.offset⟩] stop)
    (derives : Derives grammar depth production task parameters cursor (.matched nodes stop)) :
    motive depth cursor nodes stop := by
  have still : ∀ depth cursor, motive depth cursor [] cursor := fun depth cursor =>
    silent depth cursor cursor ⟨[], .refl cursor⟩
  generalize result : Outcome.matched nodes stop = outcome at derives
  induction derives generalizing nodes stop with
  | empty | sequenceNil | lookbehindMatched _ _ _ =>
      cases result
      exact still _ _
  | startOfLine | endOfInput | full | lookaheadMatched _ _ | lookaheadUnmatched _ _
  | exhausted _ _ _ =>
      obtain ⟨-, rfl, rfl⟩ := Outcome.check_eq_matched_iff.mp result.symm
      exact still _ _
  | literal spans | chars spans _ =>
      cases result
      exact silent _ _ _ ⟨_, spans⟩
  | reference nests found counts binds body induction =>
      obtain ⟨content, rfl, rfl⟩ := Outcome.enclose_eq_matched_iff.mp result.symm
      exact call _ _ _ _ _ _ _ _ _ _ _ nests found counts binds body (induction rfl)
  | sequenceCons _ _ inductionHead inductionTail | again _ _ _ _ inductionHead inductionTail =>
      obtain ⟨more, rfl, rfl⟩ := Outcome.prepend_eq_matched_iff.mp result.symm
      exact append _ _ _ _ _ _ (inductionHead rfl) (inductionTail rfl)
  | zeroWidth _ induction =>
      obtain ⟨more, ends, rfl⟩ := Outcome.prepend_eq_matched_iff.mp result.symm
      obtain ⟨-, rfl, rfl⟩ := Outcome.check_eq_matched_iff.mp ends
      exact append _ _ _ _ _ _ (induction rfl) (still _ _)
  | firstNext _ _ _ induction | firstStop _ _ induction | bounded _ _ _ induction
  | unbounded _ _ induction | indentation _ _ _ _ induction | covered _ _ induction
  | otherCase _ _ induction => exact induction result
  | sequenceStop _ stops | lookbehindStop _ _ stops =>
      subst result
      simp at stops
  | _ => cases result

/-- A match lies ahead of the place where it starts. -/
theorem exists_spans
    (derives : Derives grammar depth production task parameters cursor (.matched nodes stop)) :
    ∃ chars, cursor.Spans chars stop := by
  refine match_induction (motive := fun _ cursor _ stop => ∃ chars, cursor.Spans chars stop)
    ?_ ?_ ?_ derives
  · exact fun _ _ _ spans => spans
  · rintro _ cursor _ middle _ stop ⟨left, spansLeft⟩ ⟨right, spansRight⟩
    exact ⟨left ++ right, spansLeft.trans spansRight⟩
  · exact fun _ _ _ _ _ _ _ _ _ _ _ _ _ _ _ _ spans => spans

theorem whole_eq
    (derives : Derives grammar depth production task parameters cursor (.matched nodes stop)) :
    stop.whole = cursor.whole := by
  obtain ⟨chars, spans⟩ := derives.exists_spans
  exact spans.whole_eq

theorem offset_le
    (derives : Derives grammar depth production task parameters cursor (.matched nodes stop)) :
    cursor.offset ≤ stop.offset := by
  obtain ⟨chars, spans⟩ := derives.exists_spans
  rw [spans.offset_eq]
  exact Nat.le_add_right _ _

/-- A match that moves leaves less of the text. -/
theorem length_rest_lt
    (derives : Derives grammar depth production task parameters cursor (.matched nodes stop))
    (moves : stop ≠ cursor) : stop.rest.length < cursor.rest.length := by
  obtain ⟨chars, spans⟩ := derives.exists_spans
  have some : chars ≠ [] := by
    rintro rfl
    exact moves (Cursor.spans_nil_iff.mp spans)
  have positive := List.length_pos_iff.mpr some
  rw [spans.length_rest]
  omega

/-- Room for deeper nesting keeps a derivation. -/
theorem mono {deeper : ℕ∞} (le : depth ≤ deeper)
    (derives : Derives grammar depth production task parameters cursor outcome) :
    Derives grammar deeper production task parameters cursor outcome := by
  induction derives with
  | empty => exact .empty
  | startOfLine => exact .startOfLine
  | endOfInput => exact .endOfInput
  | literal spans => exact .literal spans
  | otherLiteral differs => exact .otherLiteral differs
  | chars spans member => exact .chars spans member
  | otherChars differs => exact .otherChars differs
  | undefined missing => exact .undefined missing
  | arity found differ => exact .arity found differ
  | unbound found counts fails => exact .unbound found counts fails
  | reference nests found counts binds body =>
      exact .reference (nests.trans le) found counts binds body
  | sequenceNil => exact .sequenceNil
  | sequenceCons _ _ head tail => exact .sequenceCons (head le) (tail le)
  | sequenceStop _ stops head => exact .sequenceStop (head le) stops
  | firstNil => exact .firstNil
  | firstNext _ _ head tail => exact .firstNext (head le) (tail le)
  | firstStop _ stops head => exact .firstStop (head le) stops
  | minimumUnbound fails => exact .minimumUnbound fails
  | maximumUnbound atLeast fails => exact .maximumUnbound atLeast fails
  | bounded atLeast atMost _ repeats => exact .bounded atLeast atMost (repeats le)
  | unbounded atLeast _ repeats => exact .unbounded atLeast (repeats le)
  | lookaheadMatched _ inside => exact .lookaheadMatched (inside le)
  | lookaheadUnmatched _ inside => exact .lookaheadUnmatched (inside le)
  | lookaheadFailed _ inside => exact .lookaheadFailed (inside le)
  | lookbehindStart starts => exact .lookbehindStart starts
  | lookbehindMatched spans _ inside => exact .lookbehindMatched spans (inside le)
  | lookbehindMissed spans _ missed inside => exact .lookbehindMissed spans (inside le) missed
  | lookbehindStop spans _ stops inside => exact .lookbehindStop spans (inside le) stops
  | indentationUnbound fails => exact .indentationUnbound fails
  | shallow atLeast less => exact .shallow atLeast less
  | indentation atLeast detects enough _ inside =>
      exact .indentation atLeast detects enough (inside le)
  | uncovered => exact .uncovered
  | covered satisfies _ inside => exact .covered satisfies (inside le)
  | otherCase satisfies _ later => exact .otherCase satisfies (later le)
  | full => exact .full
  | exhausted unfilled _ inside => exact .exhausted unfilled (inside le)
  | repetitionFailed unfilled _ inside => exact .repetitionFailed unfilled (inside le)
  | zeroWidth _ inside => exact .zeroWidth (inside le)
  | again unfilled _ moves _ inside more => exact .again unfilled (inside le) moves (more le)

/-- Every derivation nests its calls finitely deep. -/
theorem exists_depth (derives : Derives grammar depth production task parameters cursor outcome) :
    ∃ finite : ℕ, Derives grammar finite production task parameters cursor outcome := by
  induction derives with
  | empty => exact ⟨0, .empty⟩
  | startOfLine => exact ⟨0, .startOfLine⟩
  | endOfInput => exact ⟨0, .endOfInput⟩
  | literal spans => exact ⟨0, .literal spans⟩
  | otherLiteral differs => exact ⟨0, .otherLiteral differs⟩
  | chars spans member => exact ⟨0, .chars spans member⟩
  | otherChars differs => exact ⟨0, .otherChars differs⟩
  | undefined missing => exact ⟨0, .undefined missing⟩
  | arity found differ => exact ⟨0, .arity found differ⟩
  | unbound found counts fails => exact ⟨0, .unbound found counts fails⟩
  | reference _ found counts binds _ induction =>
      obtain ⟨inner, body⟩ := induction
      exact ⟨inner + 1, .reference (by simp) found counts binds body⟩
  | sequenceNil => exact ⟨0, .sequenceNil⟩
  | sequenceCons _ _ inductionHead inductionTail =>
      obtain ⟨left, head⟩ := inductionHead
      obtain ⟨right, tail⟩ := inductionTail
      exact ⟨max left right, .sequenceCons (head.mono (by simp)) (tail.mono (by simp))⟩
  | sequenceStop _ stops induction =>
      obtain ⟨finite, head⟩ := induction
      exact ⟨finite, .sequenceStop head stops⟩
  | firstNil => exact ⟨0, .firstNil⟩
  | firstNext _ _ inductionHead inductionTail =>
      obtain ⟨left, head⟩ := inductionHead
      obtain ⟨right, tail⟩ := inductionTail
      exact ⟨max left right, .firstNext (head.mono (by simp)) (tail.mono (by simp))⟩
  | firstStop _ stops induction =>
      obtain ⟨finite, head⟩ := induction
      exact ⟨finite, .firstStop head stops⟩
  | minimumUnbound fails => exact ⟨0, .minimumUnbound fails⟩
  | maximumUnbound atLeast fails => exact ⟨0, .maximumUnbound atLeast fails⟩
  | bounded atLeast atMost _ induction =>
      obtain ⟨finite, repeats⟩ := induction
      exact ⟨finite, .bounded atLeast atMost repeats⟩
  | unbounded atLeast _ induction =>
      obtain ⟨finite, repeats⟩ := induction
      exact ⟨finite, .unbounded atLeast repeats⟩
  | lookaheadMatched _ induction =>
      obtain ⟨finite, inside⟩ := induction
      exact ⟨finite, .lookaheadMatched inside⟩
  | lookaheadUnmatched _ induction =>
      obtain ⟨finite, inside⟩ := induction
      exact ⟨finite, .lookaheadUnmatched inside⟩
  | lookaheadFailed _ induction =>
      obtain ⟨finite, inside⟩ := induction
      exact ⟨finite, .lookaheadFailed inside⟩
  | lookbehindStart starts => exact ⟨0, .lookbehindStart starts⟩
  | lookbehindMatched spans _ induction =>
      obtain ⟨finite, inside⟩ := induction
      exact ⟨finite, .lookbehindMatched spans inside⟩
  | lookbehindMissed spans _ missed induction =>
      obtain ⟨finite, inside⟩ := induction
      exact ⟨finite, .lookbehindMissed spans inside missed⟩
  | lookbehindStop spans _ stops induction =>
      obtain ⟨finite, inside⟩ := induction
      exact ⟨finite, .lookbehindStop spans inside stops⟩
  | indentationUnbound fails => exact ⟨0, .indentationUnbound fails⟩
  | shallow atLeast less => exact ⟨0, .shallow atLeast less⟩
  | indentation atLeast detects enough _ induction =>
      obtain ⟨finite, inside⟩ := induction
      exact ⟨finite, .indentation atLeast detects enough inside⟩
  | uncovered => exact ⟨0, .uncovered⟩
  | covered satisfies _ induction =>
      obtain ⟨finite, inside⟩ := induction
      exact ⟨finite, .covered satisfies inside⟩
  | otherCase satisfies _ induction =>
      obtain ⟨finite, later⟩ := induction
      exact ⟨finite, .otherCase satisfies later⟩
  | full => exact ⟨0, .full⟩
  | exhausted unfilled _ induction =>
      obtain ⟨finite, inside⟩ := induction
      exact ⟨finite, .exhausted unfilled inside⟩
  | repetitionFailed unfilled _ induction =>
      obtain ⟨finite, inside⟩ := induction
      exact ⟨finite, .repetitionFailed unfilled inside⟩
  | zeroWidth _ induction =>
      obtain ⟨finite, inside⟩ := induction
      exact ⟨finite, .zeroWidth inside⟩
  | again unfilled _ moves _ inductionHead inductionTail =>
      obtain ⟨left, inside⟩ := inductionHead
      obtain ⟨right, more⟩ := inductionTail
      exact ⟨max left right,
        .again unfilled (inside.mono (by simp)) moves (more.mono (by simp))⟩

/-- An expression has at most one outcome at a place, however deeply its calls may nest. -/
theorem deterministic {other : ℕ∞} {outcome' : Outcome}
    (derives : Derives grammar depth production task parameters cursor outcome)
    (derives' : Derives grammar other production task parameters cursor outcome') :
    outcome = outcome' := by
  induction derives generalizing other outcome' with
  | literal spans => cases derives' <;> grind [Cursor.Spans.unique]
  | chars spans member => cases derives' <;> grind [Cursor.Spans.unique_char]
  | lookbehindMatched spans _ induction =>
      cases derives' <;> grind [Cursor.Spans.unique_back, Outcome.isMatched, Cursor.Spans]
  | lookbehindMissed spans _ missed induction =>
      cases derives' <;> grind [Cursor.Spans.unique_back, Outcome.isMatched, Cursor.Spans]
  | lookbehindStop spans _ stops induction =>
      cases derives' <;> grind [Cursor.Spans.unique_back, Outcome.isMatched, Cursor.Spans]
  | _ => cases derives' <;> grind [Outcome.isMatched, Cursor.Spans]

end Derives

/-- The meaning of an expression at a byte offset of a text: its meaning at the place there, as an
outermost expression, and no match where there is no place. -/
inductive Parses (grammar : Grammar) (text : List Char) (offset : Nat) (parameters : Parameters)
    (node : Node) : Outcome → Prop where
  | place {cursor : Cursor} {outcome : Outcome} (whole : cursor.whole = text)
      (located : cursor.offset = offset)
      (derives : Derives grammar ⊤ outside (.node node) parameters cursor outcome) :
      Parses grammar text offset parameters node outcome
  | nowhere (missing : ∀ cursor : Cursor, cursor.whole = text → cursor.offset ≠ offset) :
      Parses grammar text offset parameters node .unmatched

end ParametricGrammar
