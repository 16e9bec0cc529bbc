import ParametricGrammar.Proofs.Dialect.LastClause
import ParametricGrammar.Proofs.Dialect.TextErrors
/-!
# How deeply grammar texts nest

Each production of the dialect asks for lower ones, but for groups and lookarounds, which ask for an
alternation behind the bracket that opens them. So no text is read in circles, and how deeply the
calls nest is bounded by its opening brackets: six calls for each of them.
-/

namespace ParametricGrammar

namespace Bnf

namespace Dialect

variable {node child : Node} {ahead rest : List Char} {asked : List Spot} {reading : Reading}
  {spot other : Spot}

/-! ### Everything is traced -/

/-- Something is traced for the production at a spot. -/
def Spot.Settled (spot : Spot) : Prop := ∃ asked reading, spot.Holds asked reading

/-- A repetition of an expression that is traced everywhere is traced. -/
theorem exists_traces_repeated
    (once : ∀ rest, rest <:+ ahead → ∃ asked reading, Traces child rest asked reading)
    (least : UInt32) :
    ∃ asked reading, Traces (.repeated child (.fixed least) none) ahead asked reading := by
  induction size : ahead.length using Nat.strongRecOn generalizing ahead least with
  | _ _ induction =>
  obtain ⟨before, reading, head⟩ := once ahead List.suffix_rfl
  cases reading with
  | none => exact ⟨_, _, .exhausted head⟩
  | some read =>
      obtain ⟨parts, middle⟩ := read
      by_cases moves : middle = ahead
      · subst moves
        exact ⟨_, _, .idle head⟩
      · have shorter := head.length_lt moves
        obtain ⟨chars, rfl⟩ := head.exists_chars
        obtain ⟨behind, reading, tail⟩ := induction _ (size ▸ shorter)
          (fun rest suffix => once rest (suffix.trans (List.suffix_append _ _))) 0 rfl
        cases reading with
        | none => exact absurd rfl tail.zeroOrMore_ne_none
        | some read => exact ⟨_, _, .again head moves tail⟩

mutual

/-- An expression is traced if the productions that it mentions are settled. -/
theorem exists_traces : (node : Node) → node.isTraceable = true → (ahead : List Char) →
    (∀ name ∈ node.references, ∀ rest, rest <:+ ahead → (⟨name, rest⟩ : Spot).Settled) →
    ∃ asked reading, Traces node ahead asked reading
  | .empty, _, _, _ => ⟨_, _, .empty⟩
  | .endOfInput, _, [], _ => ⟨_, _, .ends⟩
  | .endOfInput, _, _ :: _, _ => ⟨_, _, .goesOn (List.cons_ne_nil _ _)⟩
  | .literal text, _, ahead, _ => by
      by_cases spelled : text.toList <+: ahead
      · obtain ⟨rest, rfl⟩ := spelled
        exact ⟨_, _, .literal rfl⟩
      · exact ⟨_, _, .otherLiteral spelled⟩
  | .chars set, _, [], _ => ⟨_, _, .otherChars (by simp)⟩
  | .chars set, _, char :: rest, _ => by
      cases member : set.contains char with
      | true => exact ⟨_, _, .chars member⟩
      | false => exact ⟨_, _, .otherChars (by simpa using member)⟩
  | .reference name arguments, traceable, ahead, settled => by
      obtain rfl := List.isEmpty_iff.mp traceable
      obtain ⟨inner, reading, body, member, inside⟩ :=
        settled name (List.mem_singleton_self _) ahead List.suffix_rfl
      cases reading with
      | none => exact ⟨_, _, .missed member inside⟩
      | some read =>
          obtain ⟨chars, split⟩ := inside.exists_chars
          exact ⟨_, _, .matched member split inside⟩
  | .sequence children, traceable, ahead, settled =>
      exists_traces_sequence children traceable ahead settled
  | .first children, traceable, ahead, settled =>
      exists_traces_first children traceable ahead settled
  | .repeated child minimum maximum, traceable, ahead, settled => by
      obtain ⟨plain, form⟩ := Bool.and_eq_true_iff.mp traceable
      have once : ∀ rest, rest <:+ ahead → ∃ asked reading, Traces child rest asked reading :=
        fun rest suffix => exists_traces child plain rest fun name mentioned last later =>
          settled name mentioned last (later.trans suffix)
      simp only [List.mem_cons, Prod.mk.injEq, List.not_mem_nil, or_false,
        decide_eq_true_eq] at form
      obtain ⟨rfl, rfl⟩ | ⟨rfl, rfl⟩ | ⟨rfl, rfl⟩ := form
      · obtain ⟨asked, reading, head⟩ := once ahead List.suffix_rfl
        cases reading with
        | none => exact ⟨_, _, .absent head⟩
        | some read => exact ⟨_, _, .present head⟩
      · exact exists_traces_repeated once 0
      · exact exists_traces_repeated once 1
  | .lookahead child positive, traceable, ahead, settled => by
      obtain ⟨plain, sign⟩ := Bool.and_eq_true_iff.mp traceable
      obtain rfl : positive = false := by simpa using sign
      obtain ⟨asked, reading, inside⟩ := exists_traces child plain ahead settled
      cases reading with
      | none => exact ⟨_, _, .notAhead inside⟩
      | some read => exact ⟨_, _, .isAhead inside⟩
  | .startOfLine, traceable, _, _ | .lookbehind _, traceable, _, _
  | .detectIndentation _ _, traceable, _, _ | .cases _, traceable, _, _ => by
      cases traceable

private theorem exists_traces_sequence : (nodes : List Node) → Node.areTraceable nodes = true →
    (ahead : List Char) →
    (∀ name ∈ Node.referencesOfAll nodes, ∀ rest, rest <:+ ahead →
      (⟨name, rest⟩ : Spot).Settled) →
    ∃ asked reading, Traces (.sequence nodes) ahead asked reading
  | [], _, _, _ => ⟨_, _, .nil⟩
  | node :: nodes, traceable, ahead, settled => by
      obtain ⟨plain, others⟩ := Bool.and_eq_true_iff.mp traceable
      obtain ⟨before, reading, head⟩ := exists_traces node plain ahead fun name mentioned =>
        settled name (List.mem_append_left _ mentioned)
      cases reading with
      | none => exact ⟨_, _, .stop head⟩
      | some read =>
          obtain ⟨chars, rfl⟩ := head.exists_chars
          obtain ⟨behind, later, tail⟩ := exists_traces_sequence nodes others read.2
            fun name mentioned rest suffix => settled name (List.mem_append_right _ mentioned)
              rest (suffix.trans (List.suffix_append _ _))
          cases later with
          | none => exact ⟨_, _, .broken head tail⟩
          | some more => exact ⟨_, _, .cons head tail⟩

private theorem exists_traces_first : (nodes : List Node) → Node.areTraceable nodes = true →
    (ahead : List Char) →
    (∀ name ∈ Node.referencesOfAll nodes, ∀ rest, rest <:+ ahead →
      (⟨name, rest⟩ : Spot).Settled) →
    ∃ asked reading, Traces (.first nodes) ahead asked reading
  | [], _, _, _ => ⟨_, _, .noOther⟩
  | node :: nodes, traceable, ahead, settled => by
      obtain ⟨plain, others⟩ := Bool.and_eq_true_iff.mp traceable
      obtain ⟨before, reading, head⟩ := exists_traces node plain ahead fun name mentioned =>
        settled name (List.mem_append_left _ mentioned)
      cases reading with
      | some read => exact ⟨_, _, .chosen head⟩
      | none =>
          obtain ⟨behind, later, tail⟩ :=
            exists_traces_first nodes others ahead fun name mentioned =>
              settled name (List.mem_append_right _ mentioned)
          exact ⟨_, _, .next head tail⟩

end

/-! ### Levels -/

/-- The productions that ask for an alternation behind a bracket. -/
def enclosing : List String := ["group", "lookaround"]

/-- The productions with recursion, those first that the later ones ask for at the same place. -/
def recursive : List (List String) :=
  [ enclosing, ["atom"], ["quantified"], ["difference"], ["sequence"], ["alternation"],
    ["production"], ["grammar"] ]

/-- How deeply the productions nest that a production asks for before the next opening bracket. -/
def level (name : String) : ℕ := (ranks ++ recursive).findIdx (name ∈ ·)

/-- The number of brackets that may open a group or a lookaround. -/
def openings (chars : List Char) : ℕ := chars.countP fun char => char = '(' || char = '['

/-- How deeply the productions nest that the production at a spot asks for, at most. -/
def Spot.nesting (spot : Spot) : ℕ := level spot.name + 6 * openings spot.ahead

private theorem openings_append (chars rest : List Char) :
    openings (chars ++ rest) = openings chars + openings rest := List.countP_append

private theorem openings_le_of_suffix (suffix : rest <:+ ahead) : openings rest ≤ openings ahead :=
  suffix.sublist.countP_le

section Rules

variable {name called : String} {body : Node} (member : (name, body) ∈ rules)

include member

private theorem level_le : level name ≤ 15 :=
  of_decide_eq_true (check_of_mem (fun name _ => level name ≤ 15) rfl member)

private theorem level_lt_of_mem (other : name ∉ enclosing) (among : called ∈ body.references) :
    level called < level name := by
  have holds := check_of_mem (fun name body =>
    name ∈ enclosing || body.references.all (level · < level name)) rfl member
  simp only [other, decide_false, Bool.false_or] at holds
  exact of_decide_eq_true (List.all_eq_true.mp holds called among)

/-- What a group or a lookaround asks for is higher, but not by as much as its bracket counts. -/
theorem level_lt_add_of_mem (among : called ∈ body.references) : level called < level name + 6 := by
  have holds := check_of_mem (fun name body =>
    body.references.all (level · < level name + 6)) rfl member
  exact of_decide_eq_true (List.all_eq_true.mp holds called among)

private theorem exists_rule_of_mem (among : called ∈ body.references) :
    ∃ other, (called, other) ∈ rules := by
  have holds := check_of_mem (fun _ body =>
    body.references.all (· ∈ rules.map Prod.fst)) rfl member
  obtain ⟨⟨_, other⟩, listed, rfl⟩ :=
    List.mem_map.mp (of_decide_eq_true (List.all_eq_true.mp holds called among))
  exact ⟨other, listed⟩

/-- A group or a lookaround starts with a bracket. -/
theorem exists_bracket (encloses : name ∈ enclosing) : ∃ bracket nodes,
    body = .sequence (.literal bracket :: nodes) ∧ openings bracket.toList = 1 := by
  simp only [enclosing, List.mem_cons, List.not_mem_nil, or_false] at encloses
  rcases encloses with rfl | rfl
  · obtain rfl := body_unique member (by simp [rules]; rfl)
    exact ⟨_, _, rfl, by decide⟩
  · obtain rfl := body_unique member (by simp [rules]; rfl)
    exact ⟨_, _, rfl, by decide⟩

end Rules

/-! ### Nesting -/

/-- A production asks for others that nest less. -/
theorem Spot.Holds.nesting_lt (holds : spot.Holds asked reading) (among : other ∈ asked) :
    other.nesting < spot.nesting := by
  obtain ⟨body, member, traces⟩ := holds
  have mentioned := traces.mem_references among
  unfold Spot.nesting
  by_cases encloses : spot.name ∈ enclosing
  · obtain ⟨bracket, nodes, rfl, opens⟩ := exists_bracket member encloses
    rcases traces_sequence_cons.mp traces with
      ⟨head, -⟩ | ⟨before, behind, parts, middle, later, head, tail, rfl, -⟩
    · obtain ⟨rfl, -⟩ := traces_literal.mp head
      cases among
    · obtain ⟨rfl, -, spelled⟩ := traces_literal_some.mp head
      have fewer := openings_le_of_suffix (tail.suffix_of_mem among)
      have higher := level_lt_add_of_mem member mentioned
      rw [spelled, openings_append, opens]
      omega
  · have most := openings_le_of_suffix (traces.suffix_of_mem among)
    have lower := level_lt_of_mem member encloses mentioned
    omega

/-- Every production reads something or nothing at every spot. -/
theorem Spot.settled (spot : Spot) {body : Node} (member : (spot.name, body) ∈ rules) :
    spot.Settled := by
  induction nested : spot.nesting using Nat.strongRecOn generalizing spot body with
  | _ _ induction =>
  subst nested
  have lower : ∀ name ∈ body.references, ∀ rest,
      (⟨name, rest⟩ : Spot).nesting < spot.nesting → (⟨name, rest⟩ : Spot).Settled := by
    intro name mentioned rest less
    obtain ⟨other, among⟩ := exists_rule_of_mem member mentioned
    exact induction _ less _ among rfl
  by_cases encloses : spot.name ∈ enclosing
  · obtain ⟨bracket, nodes, rfl, opens⟩ := exists_bracket member encloses
    by_cases spelled : bracket.toList <+: spot.ahead
    · obtain ⟨middle, split⟩ := spelled
      have traceable : Node.areTraceable nodes = true := isTraceable_of_mem member
      obtain ⟨asked, reading, tail⟩ := exists_traces_sequence nodes traceable middle <| by
        intro name mentioned rest suffix
        refine lower name mentioned rest ?_
        have higher : level name < _ := level_lt_add_of_mem member mentioned
        have most := openings_le_of_suffix suffix
        unfold Spot.nesting
        rw [← split, openings_append, opens]
        dsimp only
        omega
      exact ⟨_, _, _, member, traces_sequence_cons.mpr
        (.inr ⟨[], asked, [], middle, reading, .literal split.symm, tail, rfl, rfl⟩)⟩
    · exact ⟨_, _, _, member, .stop (.otherLiteral spelled)⟩
  · have traceable : body.isTraceable = true := isTraceable_of_mem member
    obtain ⟨asked, reading, traces⟩ := exists_traces body traceable spot.ahead <| by
      intro name mentioned rest suffix
      refine lower name mentioned rest ?_
      have less : level name < _ := level_lt_of_mem member encloses mentioned
      have most := openings_le_of_suffix suffix
      unfold Spot.nesting
      dsimp only
      omega
    exact ⟨_, _, _, member, traces⟩

/-- An expression of the dialect reads something or nothing before all characters. -/
theorem exists_traces_of_known (traceable : node.isTraceable = true)
    (known : ∀ name ∈ node.references, name ∈ rules.map Prod.fst) (ahead : List Char) :
    ∃ asked reading, Traces node ahead asked reading :=
  exists_traces node traceable ahead fun name mentioned rest _ => by
    obtain ⟨⟨_, body⟩, member, rfl⟩ := List.mem_map.mp (known name mentioned)
    exact Spot.settled ⟨_, rest⟩ member

theorem exists_traces_call {name : String} {body : Node} (member : (name, body) ∈ rules)
    (ahead : List Char) : ∃ asked reading, Traces (.call name) ahead asked reading :=
  exists_traces_of_known rfl (fun other mentioned => by
    obtain rfl := List.mem_singleton.mp mentioned
    exact List.mem_map_of_mem member) ahead

/-- A run gets past every production with room for its nesting. -/
theorem Spot.Holds.explorable (holds : spot.Holds asked reading) :
    Explorable (spot.nesting + 1) spot := by
  induction nested : spot.nesting using Nat.strongRecOn generalizing spot asked reading with
  | _ _ induction =>
  subst nested
  refine .of_holds holds fun other among => ?_
  have less := holds.nesting_lt among
  obtain ⟨body, member, traces⟩ := holds
  obtain ⟨inner, read, holds⟩ := traces.exists_holds among
  exact (induction _ less holds rfl).mono less

/-! ### Runs -/

/-- The failures in a memory are those that runs of the dialect on a text have found. -/
def Learned (source : List Char) (memory : Memory) : Prop :=
  ∃ known, Remembers source memory known ∧ Refuted known ∧ Closed known

private theorem learned_fresh (source : List Char) : Learned source .fresh :=
  ⟨∅, remembers_fresh source, refuted_empty, closed_empty⟩

/-- A limit is within reach of the nesting of a text. -/
def Reachable (source : List Char) (limit : ℕ) : Prop := limit ≤ 15 + 6 * openings source

/-- An evaluation in the dialect explores what it asks for, or exceeds the limit. -/
theorem Traces.goes_evaluate {source : List Char} {memory : Memory} {known : Set Spot}
    {cursor : Cursor} (traces : Traces node cursor.rest asked reading)
    (traceable : node.isTraceable = true) (whole : cursor.whole = source)
    (refuted : Refuted known) (remembers : Remembers source memory known) (limit : ℕ) :
    Goes source limit limit known asked reading
      (node.evaluate outside ((remembering limit).invoke limit) .empty cursor memory) := by
  rw [Node.evaluate_eq_run]
  exact (traces.passes traceable outside whole rfl).passes.goes
    (callsGo_invoke source limit outside limit) refuted remembers

/-- What an expression asks for is explored within a limit that is out of reach. -/
theorem Traces.explorable {source ahead : List Char} {limit : ℕ}
    (traces : Traces node ahead asked reading) (suffix : ahead <:+ source)
    (enough : ¬ Reachable source limit) : ∀ spot ∈ asked, Explorable limit spot := by
  intro spot among
  obtain ⟨inner, read, holds⟩ := traces.exists_holds among
  refine holds.explorable.mono ?_
  obtain ⟨body, member, -⟩ := holds
  have low := level_le member
  have few := openings_le_of_suffix ((traces.suffix_of_mem among).trans suffix)
  unfold Reachable at enough
  unfold Spot.nesting
  omega

/-- An expression matches nothing where it reads nothing. -/
theorem Traces.parses_unmatched {place : Cursor} (traces : Traces node place.rest asked none)
    (traceable : node.isTraceable = true) :
    Parses grammar place.whole place.offset .empty node .unmatched := by
  obtain ⟨limit, far⟩ : ∃ limit, ¬ Reachable place.whole limit :=
    ⟨16 + 6 * openings place.whole, by unfold Reachable; omega⟩
  obtain ⟨after, explores⟩ := exists_explores
    (traces.explorable (List.suffix_append _ _) far) closed_empty refuted_empty
  have answers := node.evaluate_answers ((remembering limit).invoke_answers limit) outside .empty
    place .fresh Memory.sound_fresh
  rcases traces.goes_evaluate traceable rfl refuted_empty (remembers_fresh _) limit with
    ⟨_, -, -, shown⟩ | ⟨stuck, -⟩
  · generalize node.evaluate outside _ _ _ _ = reply at answers shown
    obtain ⟨outcome, memory⟩ := reply
    cases shown
    exact .place rfl rfl ((answers.outcome.resolve_left nofun).mono le_top)
  · exact absurd explores (stuck after)

section Runs

variable (node) (limit : ℕ) {source : List Char} {memory : Memory}
  (traceable : node.isTraceable = true)
  (defined : ∀ name ∈ node.references, ∃ body, (name, body) ∈ rules)
  (learned : Learned source memory)

include traceable defined learned

/-- An evaluation in the dialect ends without an error, or it exceeds the limit. -/
theorem evaluate_learned {cursor : Cursor} (whole : cursor.whole = source) :
    let reply := node.evaluate outside ((remembering limit).invoke limit) .empty cursor memory
    (Learned source reply.2 ∧ ∀ error, reply.1 ≠ .failed error) ∨
      (reply.1 = .failed (.recursionLimitExceeded limit) ∧ Reachable source limit) := by
  obtain ⟨known, remembers, refuted, closed⟩ := learned
  obtain ⟨asked, reading, traces⟩ := exists_traces node traceable cursor.rest
    fun name mentioned rest _ =>
      have ⟨body, member⟩ := defined name mentioned
      Spot.settled ⟨name, rest⟩ member
  have goes := traces.goes_evaluate traceable whole refuted remembers limit
  refine goes.imp (fun ⟨after, explores, remembers, shown⟩ => ?_) fun ⟨stuck, exceeded⟩ => ?_
  · refine ⟨⟨after, remembers, explores.refuted refuted, (explores.complete closed).closed⟩, ?_⟩
    intro error failed
    rw [failed] at shown
    cases shown
  · refine ⟨exceeded, ?_⟩
    by_contra enough
    have suffix : cursor.rest <:+ source := whole ▸ List.suffix_append _ _
    have explorable := traces.explorable suffix enough
    obtain ⟨after, explores⟩ := exists_explores explorable closed refuted
    exact stuck after explores

private theorem endOf_learned (offset : ℕ) :
    match endOf ⟨remembering limit, source, memory⟩ offset node with
    | .ok (_, session) =>
        ∃ after, session = ⟨remembering limit, source, after⟩ ∧ Learned source after
    | .error error => error = .run (.recursionLimitExceeded limit) ∧ Reachable source limit := by
  simp only [endOf, Session.parse, Setting.parse, limit_remembering]
  cases located : Cursor.at? source offset with
  | none => exact ⟨memory, rfl, learned⟩
  | some cursor =>
      obtain ⟨whole, -⟩ := Cursor.at?_eq_some_iff.mp located
      have ends := evaluate_learned node limit traceable defined learned whole
      dsimp only at ends ⊢
      cases reply : node.evaluate outside ((remembering limit).invoke limit) .empty cursor
        memory with
      | mk outcome after =>
      rw [reply] at ends
      cases outcome with
      | matched trees stop => exact ⟨after, rfl, (ends.resolve_right (by simp)).1⟩
      | unmatched => exact ⟨after, rfl, (ends.resolve_right (by simp)).1⟩
      | failed error =>
          obtain ⟨same, reaches⟩ := ends.resolve_left fun ends => ends.2 error rfl
          cases same
          exact ⟨rfl, reaches⟩

end Runs

/-! ### Texts -/

theorem bind_eq_error_iff {α β : Type} {result : Except CompileError α}
    {next : α → Except CompileError β} {error : CompileError} :
    result >>= next = .error error ↔
      result = .error error ∨ ∃ value, result = .ok value ∧ next value = .error error := by
  cases result with
  | ok value => simp [bind, Except.bind]
  | error cause => simp [bind, Except.bind]

variable {text : List Char}

private theorem eq_of_parseAll (limit : ℕ) {error : RunError}
    (fails : ((remembering limit).parseAll "grammar" text).1 = .error error)
    (matched : ∀ root, error ≠ .noMatch root)
    (whole : ∀ root offset length, error ≠ .incomplete root offset length) :
    error = .recursionLimitExceeded limit ∧ Reachable text limit := by
  have ends := evaluate_learned (.call "grammar") limit rfl
    (by simp [Node.call, Node.references, rules]) (learned_fresh text) (Cursor.whole_start text)
  simp only [Node.call, Node.evaluate] at ends
  simp only [Setting.parseAll, limit_remembering] at fails
  cases reply : (remembering limit).invoke limit outside "grammar" [] .empty (.start text)
    .fresh with
  | mk outcome after =>
  rw [reply] at fails ends
  cases outcome with
  | matched trees stop =>
      cases trees with
      | nil => exact absurd (Except.error.inj fails).symm (matched _)
      | cons tree trees =>
          dsimp only at fails
          split at fails
          · cases fails
          · exact absurd (Except.error.inj fails).symm (whole _ _ _)
  | unmatched => exact absurd (Except.error.inj fails).symm (matched _)
  | failed cause =>
      cases fails
      obtain ⟨same, reaches⟩ := ends.resolve_left fun ends => ends.2 error rfl
      exact ⟨Outcome.failed.inj same, reaches⟩

/-- The search for the first clause that cannot be read ends unless it exceeds the limit. -/
theorem eq_of_locateError {error : CompileError} (fails : locateError grammar text = .error error) :
    error = .run (.recursionLimitExceeded 1024) ∧ Reachable text 1024 := by
  have clauses := endOf_learned (.zeroOrMore (.call "production")) 1024 rfl
    (by simp [Node.zeroOrMore, Node.call, Node.references, rules]) (learned_fresh text) 0
  rcases bind_eq_error_iff.mp fails with ends | ⟨⟨stop, session⟩, ends, fails⟩
  · change endOf ⟨remembering 1024, text, .fresh⟩ 0 _ = _ at ends
    rw [ends] at clauses
    exact clauses
  · change endOf ⟨remembering 1024, text, .fresh⟩ 0 _ = _ at ends
    rw [ends] at clauses
    obtain ⟨after, rfl, learned⟩ := clauses
    have start := endOf_learned (.call "s-ignorable") 1024 rfl
      (by simp [Node.call, Node.references, rules]) learned stop
    rcases bind_eq_error_iff.mp fails with ends | ⟨⟨stop, session⟩, ends, fails⟩
    · rw [ends] at start
      exact start
    · cases fails

/-- Reading a text ends with no error of a run but the exceeded limit. -/
theorem eq_of_treeOf {error : RunError} (fails : treeOf grammar text = .error (.run error)) :
    error = .recursionLimitExceeded 1024 ∧ Reachable text 1024 := by
  -- Where the text is not matched, its first clause that cannot be read is searched for.
  have searched : (locateError grammar text >>= fun start =>
        (throw (.invalidSyntax ⟨start, start⟩) : Except CompileError Tree)) =
      .error (.run error) → error = .recursionLimitExceeded 1024 ∧ Reachable text 1024 := by
    intro fails
    rcases bind_eq_error_iff.mp fails with ends | ⟨start, -, fails⟩
    · obtain ⟨same, reaches⟩ := eq_of_locateError ends
      exact ⟨CompileError.run.inj same, reaches⟩
    · cases fails
  unfold treeOf at fails
  split at fails
  · cases fails
  · exact searched fails
  · exact searched fails
  · rename_i cause nowhere partly parsed
    cases fails
    exact eq_of_parseAll 1024 parsed (fun _ => nowhere _) fun _ _ _ => partly _ _ _

/-- No text ends in an error of a run unless it nests so deeply that the limit is exceeded: it has
to have 169 brackets that may open a group or a lookaround. -/
theorem run_error_of_compile {text : String} {error : RunError}
    (fails : compile text = .error (.run error)) :
    error = .recursionLimitExceeded 1024 ∧ 169 ≤ openings text.toList := by
  rcases bind_eq_error_iff.mp fails with reads | ⟨tree, reads, translates⟩
  · obtain ⟨same, reaches⟩ := eq_of_treeOf reads
    unfold Reachable at reaches
    exact ⟨same, by omega⟩
  · have points := locates_grammarOf (sound_of_treeOf reads)
    rw [translates] at points
    exact points.elim

end Dialect

end Bnf

end ParametricGrammar
