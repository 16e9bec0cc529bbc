import ParametricGrammar.Proofs.Dialect.Lexemes
import ParametricGrammar.Proofs.Dialect.Yields
/-!
# What the dialect asks for on the way

`Traces` says of an expression of the dialect and the characters ahead of it which productions it
asks for, before which characters, and what it reads. It mentions no places: the same characters
ahead are traced alike in every text.
-/

namespace ParametricGrammar

theorem Cursor.eq_of_rest_eq {left right : Cursor} (whole : left.whole = right.whole)
    (rest : left.rest = right.rest) : left = right := by
  refine Cursor.ext (List.reverse_injective ?_) rest
  unfold Cursor.whole at whole
  rw [rest] at whole
  exact List.append_cancel_right whole

namespace Node

mutual

/-- Whether an expression, also inside of its lookaheads, is of the kinds that the dialect is made
of. -/
def isTraceable : Node → Bool
  | .empty | .endOfInput | .literal _ | .chars _ => true
  | .reference _ arguments => arguments.isEmpty
  | .sequence children | .first children => areTraceable children
  | .repeated child minimum maximum =>
      isTraceable child &&
        ((minimum, maximum) ∈ [(.fixed 0, some (.fixed 1)), (.fixed 0, none), (.fixed 1, none)])
  | .lookahead child positive => isTraceable child && !positive
  | .startOfLine | .lookbehind _ | .detectIndentation _ _ | .cases _ => false

/-- Whether expressions, also inside of their lookaheads, are of the kinds that the dialect is made
of. -/
def areTraceable : List Node → Bool
  | [] => true
  | node :: rest => isTraceable node && areTraceable rest

end

end Node

namespace Bnf

namespace Dialect

theorem isTraceable_of_mem {name : String} {body : Node} (member : (name, body) ∈ rules) :
    body.isTraceable = true :=
  check_of_mem (fun _ body => body.isTraceable) (by decide) member

/-- A tree without places: a production with the characters that it matched. -/
structure Part where
  name : String
  chars : List Char
  content : List Part

/-- What a part is made of, without spaces and comments. -/
def Part.significant (part : Part) : List Part :=
  part.content.filter (·.name ≠ "s-ignorable")

/-- A production that is asked for before given characters. -/
structure Spot where
  name : String
  ahead : List Char

/-- What an expression reads: its parts and the characters left, or nothing. -/
abbrev Reading := Option (List Part × List Char)

/-- An expression reads something before given characters and asks for productions on the way. -/
inductive Traces : Node → List Char → List Spot → Reading → Prop where
  | empty {ahead : List Char} : Traces .empty ahead [] (some ([], ahead))
  | ends : Traces .endOfInput [] [] (some ([], []))
  | goesOn {ahead : List Char} (more : ahead ≠ []) : Traces .endOfInput ahead [] none
  | literal {text : String} {ahead rest : List Char} (spelled : ahead = text.toList ++ rest) :
      Traces (.literal text) ahead [] (some ([], rest))
  | otherLiteral {text : String} {ahead : List Char} (differs : ¬ text.toList <+: ahead) :
      Traces (.literal text) ahead [] none
  | chars {set : CharSet} {char : Char} {rest : List Char} (member : set.contains char = true) :
      Traces (.chars set) (char :: rest) [] (some ([], rest))
  | otherChars {set : CharSet} {ahead : List Char}
      (differs : ∀ char ∈ ahead.head?, set.contains char = false) :
      Traces (.chars set) ahead [] none
  -- A call only asks for its production. What that asks for is a matter of its body.
  | matched {name : String} {body : Node} {ahead chars rest : List Char} {asked : List Spot}
      {parts : List Part} (member : (name, body) ∈ rules) (split : ahead = chars ++ rest)
      (inside : Traces body ahead asked (some (parts, rest))) :
      Traces (.reference name []) ahead [⟨name, ahead⟩] (some ([⟨name, chars, parts⟩], rest))
  | missed {name : String} {body : Node} {ahead : List Char} {asked : List Spot}
      (member : (name, body) ∈ rules) (inside : Traces body ahead asked none) :
      Traces (.reference name []) ahead [⟨name, ahead⟩] none
  | nil {ahead : List Char} : Traces (.sequence []) ahead [] (some ([], ahead))
  | cons {node : Node} {nodes : List Node} {ahead middle rest : List Char}
      {before behind : List Spot} {parts more : List Part}
      (head : Traces node ahead before (some (parts, middle)))
      (tail : Traces (.sequence nodes) middle behind (some (more, rest))) :
      Traces (.sequence (node :: nodes)) ahead (before ++ behind) (some (parts ++ more, rest))
  | stop {node : Node} {nodes : List Node} {ahead : List Char} {asked : List Spot}
      (head : Traces node ahead asked none) : Traces (.sequence (node :: nodes)) ahead asked none
  | broken {node : Node} {nodes : List Node} {ahead middle : List Char}
      {before behind : List Spot} {parts : List Part}
      (head : Traces node ahead before (some (parts, middle)))
      (tail : Traces (.sequence nodes) middle behind none) :
      Traces (.sequence (node :: nodes)) ahead (before ++ behind) none
  | noOther {ahead : List Char} : Traces (.first []) ahead [] none
  | chosen {node : Node} {nodes : List Node} {ahead : List Char} {asked : List Spot}
      {read : List Part × List Char} (head : Traces node ahead asked (some read)) :
      Traces (.first (node :: nodes)) ahead asked (some read)
  | next {node : Node} {nodes : List Node} {ahead : List Char} {before behind : List Spot}
      {reading : Reading} (head : Traces node ahead before none)
      (tail : Traces (.first nodes) ahead behind reading) :
      Traces (.first (node :: nodes)) ahead (before ++ behind) reading
  | present {child : Node} {ahead : List Char} {asked : List Spot} {read : List Part × List Char}
      (once : Traces child ahead asked (some read)) :
      Traces (.repeated child (.fixed 0) (some (.fixed 1))) ahead asked (some read)
  | absent {child : Node} {ahead : List Char} {asked : List Spot}
      (misses : Traces child ahead asked none) :
      Traces (.repeated child (.fixed 0) (some (.fixed 1))) ahead asked (some ([], ahead))
  | exhausted {child : Node} {ahead : List Char} {asked : List Spot} {least : UInt32}
      (misses : Traces child ahead asked none) :
      Traces (.repeated child (.fixed least) none) ahead asked
        (if least = 0 then some ([], ahead) else none)
  -- A repetition also stops behind an empty match.
  | idle {child : Node} {ahead : List Char} {asked : List Spot} {parts : List Part}
      {least : UInt32} (once : Traces child ahead asked (some (parts, ahead))) :
      Traces (.repeated child (.fixed least) none) ahead asked (some (parts, ahead))
  | again {child : Node} {ahead middle rest : List Char} {before behind : List Spot}
      {parts more : List Part} {least : UInt32}
      (head : Traces child ahead before (some (parts, middle))) (moves : middle ≠ ahead)
      (tail : Traces (.repeated child (.fixed 0) none) middle behind (some (more, rest))) :
      Traces (.repeated child (.fixed least) none) ahead (before ++ behind)
        (some (parts ++ more, rest))
  | notAhead {child : Node} {ahead : List Char} {asked : List Spot}
      (misses : Traces child ahead asked none) :
      Traces (.lookahead child false) ahead asked (some ([], ahead))
  | isAhead {child : Node} {ahead : List Char} {asked : List Spot} {read : List Part × List Char}
      (inside : Traces child ahead asked (some read)) :
      Traces (.lookahead child false) ahead asked none

variable {node : Node} {ahead rest : List Char} {asked : List Spot} {parts : List Part}
  {reading : Reading} {source : List Char}

/-- What is read lies ahead. -/
theorem Traces.exists_chars (traces : Traces node ahead asked (some (parts, rest))) :
    ∃ chars, ahead = chars ++ rest := by
  generalize same : some (parts, rest) = reading at traces
  induction traces generalizing parts rest with
  | empty | nil | absent | notAhead => cases same; exact ⟨[], rfl⟩
  | ends => cases same; exact ⟨[], rfl⟩
  | literal spelled => cases same; exact ⟨_, spelled⟩
  | chars => cases same; exact ⟨[_], rfl⟩
  | matched _ split => cases same; exact ⟨_, split⟩
  | cons _ _ inductionHead inductionTail =>
      cases same
      obtain ⟨left, rfl⟩ := inductionHead rfl
      obtain ⟨right, rfl⟩ := inductionTail rfl
      exact ⟨left ++ right, (List.append_assoc ..).symm⟩
  | again _ _ _ inductionHead inductionTail =>
      cases same
      obtain ⟨left, rfl⟩ := inductionHead rfl
      obtain ⟨right, rfl⟩ := inductionTail rfl
      exact ⟨left ++ right, (List.append_assoc ..).symm⟩
  | chosen _ induction | next _ _ _ induction | present _ induction => exact induction same
  | idle _ induction => cases same; exact ⟨[], rfl⟩
  | exhausted =>
      split at same
      · cases same; exact ⟨[], rfl⟩
      · cases same
  | _ => cases same

theorem Traces.length_lt (traces : Traces node ahead asked (some (parts, rest)))
    (moves : rest ≠ ahead) : rest.length < ahead.length := by
  obtain ⟨chars, rfl⟩ := traces.exists_chars
  have some : chars ≠ [] := fun none => moves (by rw [none, List.nil_append])
  have := List.length_pos_iff.mpr some
  rw [List.length_append]
  omega

theorem body_unique {name : String} {body other : Node} (member : (name, body) ∈ rules)
    (among : (name, other) ∈ rules) : body = other := by
  have same := (get?_of_mem member).symm.trans (get?_of_mem among)
  simpa using same

theorem Traces.exists_body {name : String}
    (traces : Traces (.reference name []) ahead asked reading) :
    ∃ body inner read, (name, body) ∈ rules ∧ Traces body ahead inner read := by
  cases traces with
  | matched member _ inside => exact ⟨_, _, _, member, inside⟩
  | missed member inside => exact ⟨_, _, _, member, inside⟩

/-- The characters ahead determine what is asked for and what is read. -/
theorem Traces.unique {others : List Spot} {reading' : Reading}
    (traces : Traces node ahead asked reading) (traces' : Traces node ahead others reading') :
    asked = others ∧ reading = reading' := by
  induction traces generalizing others reading' with
  | matched member split _ induction =>
      cases traces' with
      | matched member' split' inside' =>
          obtain rfl := body_unique member member'
          obtain ⟨-, same⟩ := induction inside'
          cases same
          rw [List.append_cancel_right (split.symm.trans split')]
          exact ⟨rfl, rfl⟩
      | missed member' inside' =>
          obtain rfl := body_unique member member'
          cases (induction inside').2
  | missed member _ induction =>
      cases traces' with
      | matched member' split' inside' =>
          obtain rfl := body_unique member member'
          cases (induction inside').2
      | missed member' inside' => exact ⟨rfl, rfl⟩
  | literal spelled =>
      subst spelled
      cases traces' with
      | literal spelled' => simpa using spelled'
      | otherLiteral differs => exact absurd (List.prefix_append _ _) differs
  | otherLiteral differs =>
      cases traces' with
      | literal spelled' =>
          subst spelled'
          exact absurd (List.prefix_append _ _) differs
      | otherLiteral => exact ⟨rfl, rfl⟩
  | _ => cases traces' <;> grind

/-! ### Outcomes -/

mutual

/-- A tree of a source without places. -/
def Part.ofTree (source : List Char) : Tree → Part
  | ⟨name, _, content, start, stop⟩ =>
      ⟨name, (slice? source start stop).getD [], Part.ofTrees source content⟩

/-- The trees of a list without places. -/
def Part.ofTrees (source : List Char) : List Tree → List Part
  | [] => []
  | tree :: rest => Part.ofTree source tree :: Part.ofTrees source rest

end

theorem Part.ofTrees_eq_map (source : List Char) (trees : List Tree) :
    Part.ofTrees source trees = trees.map (Part.ofTree source) := by
  induction trees with
  | nil => rfl
  | cons tree rest induction => rw [Part.ofTrees, induction, List.map_cons]

/-- The outcome in a text that shows what is read. -/
inductive Shows (source : List Char) : Reading → Outcome → Prop where
  | missed : Shows source none .unmatched
  | matched {trees : List Tree} {stop : Cursor} {parts : List Part} {rest : List Char}
      (whole : stop.whole = source) (made : parts = trees.map (Part.ofTree source))
      (left : rest = stop.rest) : Shows source (some (parts, rest)) (.matched trees stop)

namespace Shows

variable {outcome : Outcome}

private theorem prepend {trees : List Tree} {more : List Part} {rest : List Char}
    (after : Shows source (some (more, rest)) outcome) :
    Shows source (some (trees.map (Part.ofTree source) ++ more, rest)) (outcome.prepend trees) := by
  cases after with
  | matched whole made left => exact .matched whole (by rw [made, List.map_append]) left

end Shows

/-- What a task of the dialect reads, a repetition from its start on. -/
def TaskTraces (source ahead : List Char) (outcome : Outcome) : Task → Prop
  | .node node => node.isTraceable = true →
      ∃ asked reading, Traces node ahead asked reading ∧ Shows source reading outcome
  | .repetition child least none => child.isTraceable = true → least ≤ 1 →
      ∀ count : UInt32, count.toNat = least → ∃ asked reading,
        Traces (.repeated child (.fixed count) none) ahead asked reading ∧
          Shows source reading outcome
  | .repetition _ least (some 0) => ∃ stop, stop.whole = source ∧ stop.rest = ahead ∧
      outcome = .check (least = 0) stop
  | .repetition child least (some 1) => child.isTraceable = true → least = 0 →
      ∃ asked reading, Traces (.repeated child (.fixed 0) (some (.fixed 1))) ahead asked reading ∧
        Shows source reading outcome
  | .repetition _ _ (some _) => True

/-- A repetition that need not match reads something. -/
theorem Traces.zeroOrMore_ne_none {child : Node}
    (traces : Traces (.zeroOrMore child) ahead asked reading) : reading ≠ none := by
  generalize same : Node.zeroOrMore child = node at traces
  cases traces <;> cases same <;> simp

namespace TaskTraces

variable {child : Node} {least : ℕ} {most : Option ℕ} {cursor stop : Cursor} {nodes : List Tree}
  {outcome : Outcome}

private theorem exhausted (unfilled : most ≠ some 0)
    (inside : TaskTraces cursor.whole cursor.rest .unmatched (.node child)) :
    TaskTraces cursor.whole cursor.rest (.check (least = 0) cursor)
      (.repetition child least most) := by
  rcases most with _ | _ | _ | most
  · intro plain _ count counts
    obtain ⟨asked, _, traces, ⟨⟩⟩ := inside plain
    refine ⟨_, _, .exhausted traces, ?_⟩
    by_cases none : count = 0
    · subst none
      obtain rfl : least = 0 := counts.symm
      exact .matched rfl rfl rfl
    · have some : least ≠ 0 := fun zero => none (UInt32.toNat_inj.mp (counts.trans zero))
      simp only [none, some, if_false, decide_false]
      exact .missed
  · exact absurd rfl unfilled
  · rintro plain rfl
    obtain ⟨asked, _, traces, ⟨⟩⟩ := inside plain
    exact ⟨_, _, .absent traces, .matched rfl rfl rfl⟩
  · trivial

private theorem zeroWidth (inside : TaskTraces cursor.whole cursor.rest (.matched nodes cursor)
    (.node child)) :
    TaskTraces cursor.whole cursor.rest
      ((Outcome.check (least - 1 = 0) cursor).prepend nodes) (.repetition child least none) := by
  intro plain atMost count _
  obtain ⟨asked, _, traces, shown⟩ := inside plain
  cases shown with
  | matched whole made left =>
      subst made left
      have enough : least - 1 = 0 := by omega
      simp only [enough, decide_true, Outcome.check_true, Outcome.prepend_matched, List.append_nil]
      exact ⟨_, _, .idle traces, .matched rfl rfl rfl⟩

private theorem again (unfilled : most ≠ some 0) (moves : most = none → stop ≠ cursor)
    (head : TaskTraces cursor.whole cursor.rest (.matched nodes stop) (.node child))
    (tail : TaskTraces stop.whole stop.rest outcome
      (.repetition child (least - 1) (most.map (· - 1)))) :
    TaskTraces cursor.whole cursor.rest (outcome.prepend nodes)
      (.repetition child least most) := by
  rcases most with _ | _ | _ | most
  · intro plain atMost count _
    obtain ⟨before, _, first, shown⟩ := head plain
    obtain ⟨behind, reading, later, after⟩ := tail plain (by omega) 0 (by simp; omega)
    cases shown with
    | matched whole made left =>
        subst made left
        rw [whole] at after
        have moved : stop.rest ≠ cursor.rest := fun same =>
          moves rfl (Cursor.eq_of_rest_eq whole same)
        cases reading with
        | none => exact absurd rfl later.zeroOrMore_ne_none
        | some read => exact ⟨_, _, .again first moved later, after.prepend⟩
  · exact absurd rfl unfilled
  · rintro plain rfl
    obtain ⟨before, _, first, shown⟩ := head plain
    obtain ⟨last, whole', left', rfl⟩ := tail
    cases shown with
    | matched whole made left =>
        subst made left
        obtain rfl : last = stop := Cursor.eq_of_rest_eq whole' left'
        refine ⟨_, _, .present first, ?_⟩
        simp only [Nat.zero_sub, decide_true, Outcome.check_true, Outcome.prepend_matched,
          List.append_nil]
        exact .matched whole rfl rfl
  · trivial

end TaskTraces

/-- A derivation without an error traces its expression. -/
theorem traces_of_derives {depth : ℕ∞} {production : String} {task : Task} {parameters : Parameters}
    {cursor : Cursor} {outcome : Outcome}
    (derives : Derives grammar depth production task parameters cursor outcome)
    (bare : parameters = .empty) (ends : ∀ error, outcome ≠ .failed error) :
    TaskTraces cursor.whole cursor.rest outcome task := by
  induction derives with
  | empty => exact fun _ => ⟨_, _, .empty, .matched rfl rfl rfl⟩
  | sequenceNil => exact fun _ => ⟨_, _, .nil, .matched rfl rfl rfl⟩
  | firstNil => exact fun _ => ⟨_, _, .noOther, .missed⟩
  | @endOfInput _ _ _ cursor =>
      intro _
      cases rest : cursor.rest with
      | nil => exact ⟨_, _, .ends, .matched rfl rfl rest.symm⟩
      | cons char more => exact ⟨_, _, .goesOn (by simp), .missed⟩
  | literal spans => exact fun _ => ⟨_, _, .literal spans.1, .matched spans.whole_eq rfl rfl⟩
  | otherLiteral differs =>
      refine fun _ => ⟨_, _, .otherLiteral ?_, .missed⟩
      rintro ⟨more, spelled⟩
      obtain ⟨stop, spans, -⟩ := Cursor.exists_spans spelled.symm
      exact differs stop spans
  | chars spans member =>
      intro _
      rw [spans.1]
      exact ⟨_, _, .chars member, .matched spans.whole_eq rfl rfl⟩
  | otherChars differs =>
      refine fun _ => ⟨_, _, .otherChars fun char first => ?_, .missed⟩
      obtain ⟨more, spelled⟩ := List.head?_eq_some_iff.mp first
      obtain ⟨stop, spans, -⟩ := Cursor.exists_spans (spelled.trans (List.singleton_append).symm)
      exact differs char stop spans
  | @reference production name _ called arguments bound cursor outcome parameters inner nests found
      counts binds body induction =>
      intro plain
      obtain ⟨member, none⟩ := mem_rules_of_get? found
      obtain rfl := List.isEmpty_iff.mp plain
      rw [none] at binds
      cases binds
      obtain ⟨asked, reading, traces, shown⟩ :=
        induction rfl (by simpa using ends) (isTraceable_of_mem member)
      cases shown with
      | missed => exact ⟨_, _, .missed member traces, .missed⟩
      | @matched trees stop _ _ whole made left =>
          obtain ⟨chars, spans⟩ := body.exists_spans
          subst made left
          refine ⟨_, _, .matched member spans.1 traces, .matched whole ?_ rfl⟩
          simp only [List.map_cons, List.map_nil, Part.ofTree, Part.ofTrees_eq_map, spans.slice?_eq,
            Option.getD_some]
  | sequenceCons head tail inductionHead inductionTail =>
      intro plain
      obtain ⟨plainHead, plainTail⟩ := Bool.and_eq_true_iff.mp plain
      obtain ⟨before, _, first, shown⟩ := inductionHead bare (by simp) plainHead
      obtain ⟨behind, reading, later, after⟩ := inductionTail bare (by simpa using ends) plainTail
      cases shown with
      | matched whole made left =>
          subst made left
          rw [whole] at after
          cases reading with
          | none =>
              cases after
              exact ⟨_, _, .broken first later, .missed⟩
          | some read => exact ⟨_, _, .cons first later, after.prepend⟩
  | sequenceStop head stops induction =>
      intro plain
      obtain ⟨asked, reading, traces, shown⟩ :=
        induction bare ends (Bool.and_eq_true_iff.mp plain).1
      cases shown with
      | missed => exact ⟨_, _, .stop traces, .missed⟩
      | matched => simp at stops
  | firstNext _ _ inductionHead inductionTail =>
      intro plain
      obtain ⟨plainHead, plainTail⟩ := Bool.and_eq_true_iff.mp plain
      obtain ⟨before, _, first, shown⟩ := inductionHead bare (by simp) plainHead
      obtain ⟨behind, reading, later, after⟩ := inductionTail bare ends plainTail
      cases shown
      exact ⟨_, _, .next first later, after⟩
  | firstStop _ stops induction =>
      intro plain
      obtain ⟨asked, reading, traces, shown⟩ :=
        induction bare ends (Bool.and_eq_true_iff.mp plain).1
      cases shown with
      | missed => exact absurd rfl stops
      | matched whole made left => exact ⟨_, _, .chosen traces, .matched whole made left⟩
  | bounded atLeast atMost _ induction =>
      intro plain
      obtain ⟨plainChild, form⟩ := Bool.and_eq_true_iff.mp plain
      simp only [List.mem_cons, Prod.mk.injEq, reduceCtorEq, and_false, or_false,
        List.not_mem_nil, Option.some.injEq, decide_eq_true_eq] at form
      obtain ⟨rfl, rfl⟩ := form
      cases atLeast
      cases atMost
      exact induction bare ends plainChild rfl
  | unbounded atLeast _ induction =>
      intro plain
      obtain ⟨plainChild, form⟩ := Bool.and_eq_true_iff.mp plain
      simp only [List.mem_cons, Prod.mk.injEq, reduceCtorEq, and_false, false_or, and_true,
        List.not_mem_nil, or_false, decide_eq_true_eq] at form
      rcases form with rfl | rfl <;> cases atLeast
      · exact induction bare ends plainChild (Nat.zero_le 1) 0 rfl
      · exact induction bare ends plainChild le_rfl 1 rfl
  | lookaheadMatched _ induction =>
      intro plain
      obtain ⟨plainChild, sign⟩ := Bool.and_eq_true_iff.mp plain
      obtain rfl : _ = false := by simpa using sign
      obtain ⟨asked, _, traces, shown⟩ := induction bare (by simp) plainChild
      cases shown
      exact ⟨_, _, .isAhead traces, .missed⟩
  | lookaheadUnmatched _ induction =>
      intro plain
      obtain ⟨plainChild, sign⟩ := Bool.and_eq_true_iff.mp plain
      obtain rfl : _ = false := by simpa using sign
      obtain ⟨asked, _, traces, shown⟩ := induction bare (by simp) plainChild
      cases shown
      exact ⟨_, _, .notAhead traces, .matched rfl rfl rfl⟩
  | full => exact ⟨_, rfl, rfl, rfl⟩
  | exhausted unfilled _ induction => exact .exhausted unfilled (induction bare (by simp))
  | zeroWidth _ induction => exact .zeroWidth (induction bare (by simp))
  | again unfilled _ moves _ inductionHead inductionTail =>
      exact .again unfilled moves (inductionHead bare (by simp))
        (inductionTail bare (by simpa using ends))
  | startOfLine | lookbehindStart _ | lookbehindMatched _ _ _ | lookbehindMissed _ _ _ _
  | lookbehindStop _ _ _ _ | shallow _ _ | indentation _ _ _ _ _ | covered _ _ _
  | otherCase _ _ _ => exact fun plain => absurd plain (by simp [Node.isTraceable])
  | _ => exact absurd rfl (ends _)

/-! ### Looking into traces -/

/-- What the body of the production at a spot asks for and reads. -/
def Spot.Holds (spot : Spot) (asked : List Spot) (reading : Reading) : Prop :=
  ∃ body, (spot.name, body) ∈ rules ∧ Traces body spot.ahead asked reading

theorem Spot.Holds.unique {spot : Spot} {others : List Spot} {reading' : Reading}
    (holds : spot.Holds asked reading) (holds' : spot.Holds others reading') :
    asked = others ∧ reading = reading' := by
  obtain ⟨body, member, traces⟩ := holds
  obtain ⟨_, member', traces'⟩ := holds'
  obtain rfl := body_unique member member'
  exact traces.unique traces'

theorem holds_iff {name : String} {body : Node} (member : (name, body) ∈ rules) :
    (⟨name, ahead⟩ : Spot).Holds asked reading ↔ Traces body ahead asked reading := by
  refine ⟨fun ⟨_, member', traces⟩ => ?_, fun traces => ⟨body, member, traces⟩⟩
  rwa [body_unique member member']

/-- Puts parts before what is read. -/
def Reading.prepend (parts : List Part) (reading : Reading) : Reading :=
  reading.map fun read => (parts ++ read.1, read.2)

@[simp] theorem Reading.prepend_nil (reading : Reading) : Reading.prepend [] reading = reading := by
  cases reading <;> rfl

@[simp] theorem Reading.prepend_eq_none_iff {parts : List Part} :
    Reading.prepend parts reading = none ↔ reading = none := by
  cases reading <;> simp [Reading.prepend]

section Inversion

variable {nodes : List Node} {text name : String} {set : CharSet} {child : Node}

theorem traces_literal : Traces (.literal text) ahead asked reading ↔
    asked = [] ∧ ((∃ rest, ahead = text.toList ++ rest ∧ reading = some ([], rest)) ∨
      (¬ text.toList <+: ahead ∧ reading = none)) := by
  constructor
  · rintro (_ | _ | _ | spelled | differs)
    · exact ⟨rfl, .inl ⟨_, spelled, rfl⟩⟩
    · exact ⟨rfl, .inr ⟨differs, rfl⟩⟩
  · rintro ⟨rfl, ⟨rest, spelled, rfl⟩ | ⟨differs, rfl⟩⟩
    · exact .literal spelled
    · exact .otherLiteral differs

theorem traces_chars : Traces (.chars set) ahead asked reading ↔
    asked = [] ∧ ((∃ char rest, ahead = char :: rest ∧ set.contains char = true ∧
        reading = some ([], rest)) ∨
      ((∀ char ∈ ahead.head?, set.contains char = false) ∧ reading = none)) := by
  constructor
  · intro traces
    cases traces with
    | chars member => exact ⟨rfl, .inl ⟨_, _, rfl, member, rfl⟩⟩
    | otherChars differs => exact ⟨rfl, .inr ⟨differs, rfl⟩⟩
  · rintro ⟨rfl, ⟨char, rest, rfl, member, rfl⟩ | ⟨differs, rfl⟩⟩
    · exact .chars member
    · exact .otherChars differs

theorem traces_call : Traces (.call name) ahead asked reading ↔
    asked = [⟨name, ahead⟩] ∧
      ((∃ inner parts rest chars, (⟨name, ahead⟩ : Spot).Holds inner (some (parts, rest)) ∧
          ahead = chars ++ rest ∧ reading = some ([⟨name, chars, parts⟩], rest)) ∨
        ∃ inner, (⟨name, ahead⟩ : Spot).Holds inner none ∧ reading = none) := by
  constructor
  · intro traces
    cases traces with
    | matched member split inside =>
        exact ⟨rfl, .inl ⟨_, _, _, _, ⟨_, member, inside⟩, split, rfl⟩⟩
    | missed member inside => exact ⟨rfl, .inr ⟨_, ⟨_, member, inside⟩, rfl⟩⟩
  · rintro ⟨rfl, ⟨_, _, _, _, ⟨_, member, inside⟩, split, rfl⟩ | ⟨_, ⟨_, member, inside⟩, rfl⟩⟩
    · exact .matched member split inside
    · exact .missed member inside

theorem traces_sequence_nil : Traces (.sequence []) ahead asked reading ↔
    asked = [] ∧ reading = some ([], ahead) := by
  constructor
  · rintro ⟨⟩
    exact ⟨rfl, rfl⟩
  · rintro ⟨rfl, rfl⟩
    exact .nil

theorem traces_sequence_cons : Traces (.sequence (node :: nodes)) ahead asked reading ↔
    (Traces node ahead asked none ∧ reading = none) ∨
      ∃ before behind parts middle later, Traces node ahead before (some (parts, middle)) ∧
        Traces (.sequence nodes) middle behind later ∧ asked = before ++ behind ∧
          reading = Reading.prepend parts later := by
  constructor
  · intro traces
    cases traces with
    | cons head tail => exact .inr ⟨_, _, _, _, _, head, tail, rfl, rfl⟩
    | stop head => exact .inl ⟨head, rfl⟩
    | broken head tail => exact .inr ⟨_, _, _, _, _, head, tail, rfl, rfl⟩
  · rintro (⟨head, rfl⟩ | ⟨_, _, _, _, later, head, tail, rfl, rfl⟩)
    · exact .stop head
    · cases later with
      | none => exact .broken head tail
      | some => exact .cons head tail

theorem traces_sequence_cons_some :
    Traces (.sequence (node :: nodes)) ahead asked (some (parts, rest)) ↔
      ∃ before behind first middle more, Traces node ahead before (some (first, middle)) ∧
        Traces (.sequence nodes) middle behind (some (more, rest)) ∧ asked = before ++ behind ∧
          parts = first ++ more := by
  constructor
  · intro traces
    cases traces with
    | cons head tail => exact ⟨_, _, _, _, _, head, tail, rfl, rfl⟩
  · rintro ⟨_, _, _, _, _, head, tail, rfl, rfl⟩
    exact .cons head tail

theorem traces_literal_some : Traces (.literal text) ahead asked (some (parts, rest)) ↔
    asked = [] ∧ parts = [] ∧ ahead = text.toList ++ rest := by
  constructor
  · intro traces
    cases traces with
    | literal spelled => exact ⟨rfl, rfl, spelled⟩
  · rintro ⟨rfl, rfl, spelled⟩
    exact .literal spelled

theorem traces_first_nil :
    Traces (.first []) ahead asked reading ↔ asked = [] ∧ reading = none := by
  constructor
  · rintro ⟨⟩
    exact ⟨rfl, rfl⟩
  · rintro ⟨rfl, rfl⟩
    exact .noOther

theorem traces_first_cons : Traces (.first (node :: nodes)) ahead asked reading ↔
    (∃ read, reading = some read ∧ Traces node ahead asked (some read)) ∨
      ∃ before behind, Traces node ahead before none ∧
        Traces (.first nodes) ahead behind reading ∧ asked = before ++ behind := by
  constructor
  · intro traces
    cases traces with
    | chosen head => exact .inl ⟨_, rfl, head⟩
    | next head tail => exact .inr ⟨_, _, head, tail, rfl⟩
  · rintro (⟨read, rfl, head⟩ | ⟨_, _, head, tail, rfl⟩)
    · exact .chosen head
    · exact .next head tail

theorem traces_optional : Traces (.optional child) ahead asked reading ↔
    (∃ read, reading = some read ∧ Traces child ahead asked (some read)) ∨
      (Traces child ahead asked none ∧ reading = some ([], ahead)) := by
  constructor
  · intro traces
    generalize same : Node.optional child = node at traces
    cases traces with
    | present once =>
        cases same
        exact .inl ⟨_, rfl, once⟩
    | absent misses =>
        cases same
        exact .inr ⟨misses, rfl⟩
    | _ => cases same
  · rintro (⟨read, rfl, once⟩ | ⟨misses, rfl⟩)
    · exact .present once
    · exact .absent misses

theorem traces_notAhead : Traces (.notAhead child) ahead asked reading ↔
    (Traces child ahead asked none ∧ reading = some ([], ahead)) ∨
      ∃ read, Traces child ahead asked (some read) ∧ reading = none := by
  constructor
  · intro traces
    cases traces with
    | notAhead misses => exact .inl ⟨misses, rfl⟩
    | isAhead inside => exact .inr ⟨_, inside, rfl⟩
  · rintro (⟨misses, rfl⟩ | ⟨read, inside, rfl⟩)
    · exact .notAhead misses
    · exact .isAhead inside

theorem traces_zeroOrMore : Traces (.zeroOrMore child) ahead asked reading ↔
    (Traces child ahead asked none ∧ reading = some ([], ahead)) ∨
      (∃ parts, Traces child ahead asked (some (parts, ahead)) ∧ reading = some (parts, ahead)) ∨
        ∃ before behind parts more middle rest, Traces child ahead before (some (parts, middle)) ∧
          middle ≠ ahead ∧ Traces (.zeroOrMore child) middle behind (some (more, rest)) ∧
          asked = before ++ behind ∧ reading = some (parts ++ more, rest) := by
  constructor
  · intro traces
    generalize same : Node.zeroOrMore child = node at traces
    cases traces with
    | exhausted misses =>
        cases same
        exact .inl ⟨misses, rfl⟩
    | idle once =>
        cases same
        exact .inr (.inl ⟨_, once, rfl⟩)
    | again head moves tail =>
        cases same
        exact .inr (.inr ⟨_, _, _, _, _, _, head, moves, tail, rfl, rfl⟩)
    | _ => cases same
  · rintro (⟨misses, rfl⟩ | ⟨_, once, rfl⟩ | ⟨_, _, _, _, _, _, head, moves, tail, rfl, rfl⟩)
    · exact .exhausted misses
    · exact .idle once
    · exact .again head moves tail

/-- What a repetition reads is read by its child step by step, up to where it stops. -/
theorem Traces.steps (holds : List Char → List Char → Prop) {least : UInt32}
    (traces : Traces (.repeated child (.fixed least) none) ahead asked (some (parts, rest)))
    (stop : ∀ {ahead asked}, Traces child ahead asked none → holds ahead ahead)
    (stay : ∀ {ahead asked parts}, Traces child ahead asked (some (parts, ahead)) →
      holds ahead ahead)
    (step : ∀ {ahead asked parts middle rest}, Traces child ahead asked (some (parts, middle)) →
      holds middle rest → holds ahead rest) : holds ahead rest := by
  generalize same : Node.repeated child (.fixed least) none = node at traces
  generalize read : some (parts, rest) = reading at traces
  induction traces generalizing least parts rest with
  | exhausted misses =>
      cases same
      split at read
      · cases read
        exact stop misses
      · cases read
  | idle once =>
      cases same
      cases read
      exact stay once
  | again head _ _ _ induction =>
      cases same
      cases read
      exact step head (induction rfl rfl)
  | _ => cases same

end Inversion

/-! ### Known matches and failures -/

/-- What is taken is read. -/
theorem Takes.exists_traces {depth : ℕ} {chars : List Char} {leaves : Leaves}
    (takes : Takes depth node chars rest leaves) (traceable : node.isTraceable = true) :
    ∃ asked parts, Traces node (chars ++ rest) asked (some (parts, rest)) := by
  obtain ⟨last, spans, behind⟩ := (Cursor.exists_spans rfl :
    ∃ last, (Cursor.start (chars ++ rest)).Spans chars last ∧ last.rest = rest)
  obtain ⟨trees, derives, -⟩ := takes outside _ last spans behind
  obtain ⟨asked, reading, traces, shown⟩ := traces_of_derives derives rfl nofun traceable
  cases shown with
  | matched _ _ left => exact ⟨asked, _, left.trans behind ▸ traces⟩

theorem Refuses.exists_traces {depth : ℕ} (refuses : Refuses depth node ahead)
    (traceable : node.isTraceable = true) : ∃ asked, Traces node ahead asked none := by
  obtain ⟨asked, reading, traces, shown⟩ :=
    traces_of_derives (refuses outside (Cursor.start ahead) rfl) rfl nofun traceable
  cases shown
  exact ⟨asked, traces⟩

theorem Takes.reads {depth : ℕ} {chars : List Char} {leaves : Leaves}
    (takes : Takes depth node chars rest leaves) (traceable : node.isTraceable = true)
    (traces : Traces node (chars ++ rest) asked reading) :
    ∃ parts, reading = some (parts, rest) := by
  obtain ⟨_, parts, traces'⟩ := takes.exists_traces traceable
  exact ⟨parts, (traces.unique traces').2⟩

theorem Refuses.reads {depth : ℕ} (refuses : Refuses depth node ahead)
    (traceable : node.isTraceable = true) (traces : Traces node ahead asked reading) :
    reading = none := by
  obtain ⟨_, traces'⟩ := refuses.exists_traces traceable
  exact (traces.unique traces').2

/-- A letter reads a character of its class, or nothing. -/
theorem reads_of_letter {depth : ℕ} {may : Char → Bool} {leaves : Leaves}
    (letter : Letter depth node may leaves) (traceable : node.isTraceable = true)
    (traces : Traces node ahead asked reading) :
    (∃ char rest parts, ahead = char :: rest ∧ may char = true ∧ reading = some (parts, rest)) ∨
      ((∀ char ∈ ahead.head?, may char = false) ∧ reading = none) := by
  by_cases opens : ∀ char ∈ ahead.head?, may char = false
  · exact .inr ⟨opens, (letter.refuses opens).reads traceable traces⟩
  · cases ahead with
    | nil => simp at opens
    | cons char rest =>
        have holds : may char = true := by simpa using opens
        obtain ⟨parts, rfl⟩ := (letter.takes holds).reads traceable traces
        exact .inl ⟨char, rest, parts, rfl, holds, rfl⟩

end Dialect

end Bnf

end ParametricGrammar
