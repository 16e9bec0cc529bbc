import ParametricGrammar.Proofs.Semantics
/-!
# Evaluation is sound

Whatever an evaluation returns, other than that the limit is exceeded, is derivable. What carries
the proof is that every call remembered as a failure is derivable to fail at its place, whoever
makes it; evaluation keeps that even when it ends in an error.
-/

namespace ParametricGrammar

namespace Memory

/-- Every call that is known to fail does fail, at its place in the text. -/
def Sound (grammar : Grammar) (text : List Char) (memory : Memory) : Prop :=
  ∀ call : Call, memory.failures.contains call = true →
    ∀ called : Production, grammar.get? call.name = some called →
      ∀ cursor : Cursor, cursor.whole = text → cursor.offset = call.offset →
        Derives grammar ⊤ call.name (.node called.body) call.parameters cursor .unmatched

variable {grammar : Grammar} {text : List Char} {memory : Memory}

theorem sound_fresh : fresh.Sound grammar text := by
  intro call known
  simp [fresh] at known

theorem Sound.log (sound : memory.Sound grammar text) (event : Event) :
    (memory.log event).Sound grammar text := sound

private theorem Sound.remember {call : Call} (sound : memory.Sound grammar text)
    (fails : ∀ called : Production, grammar.get? call.name = some called →
      ∀ cursor : Cursor, cursor.whole = text → cursor.offset = call.offset →
        Derives grammar ⊤ call.name (.node called.body) call.parameters cursor .unmatched) :
    (memory.remember call).Sound grammar text := by
  intro other known
  simp only [Memory.remember, Std.HashSet.contains_insert, Bool.or_eq_true, beq_iff_eq] at known
  rcases known with rfl | known
  · exact fails
  · exact sound other known

end Memory

namespace Setting

/-- How deeply calls nest in what a run with some room derives: a remembered failure may have been
found with more room, so that only runs without a memory are bounded. -/
def depth (setting : Setting) (room : Nat) : ℕ∞ :=
  if setting.cached then ⊤ else room

private theorem depth_succ (setting : Setting) (room : Nat) :
    setting.depth room + 1 ≤ setting.depth (room + 1) := by
  unfold depth
  split <;> simp

/-- A reply is derivable, unless the limit was exceeded, and what is remembered is sound. -/
structure Answers (setting : Setting) (room : Nat) (production : String) (task : Task)
    (parameters : Parameters) (cursor : Cursor) (reply : Reply) : Prop where
  memory : reply.2.Sound setting.grammar cursor.whole
  outcome : reply.1 = .failed (.recursionLimitExceeded setting.limit) ∨
    Derives setting.grammar (setting.depth room) production task parameters cursor reply.1

/-- Every reply of a step from a sound memory is sound. -/
def StepAnswers (setting : Setting) (room : Nat) (production : String) (task : Task)
    (parameters : Parameters) (step : Step) : Prop :=
  ∀ (cursor : Cursor) (memory : Memory), memory.Sound setting.grammar cursor.whole →
    setting.Answers room production task parameters cursor (step cursor memory)

variable {setting : Setting} {room : Nat} {production : String} {task : Task}
  {parameters : Parameters} {cursor stop : Cursor} {outcome : Outcome} {memory : Memory}

theorem Answers.derives {nodes : List Tree}
    (answers : setting.Answers room production task parameters cursor
      (.matched nodes stop, memory)) :
    Derives setting.grammar (setting.depth room) production task parameters cursor
      (.matched nodes stop) := by
  simpa using answers.outcome

theorem Answers.derives_unmatched
    (answers : setting.Answers room production task parameters cursor (.unmatched, memory)) :
    Derives setting.grammar (setting.depth room) production task parameters cursor
      .unmatched := by
  simpa using answers.outcome

/-- What is remembered after a match is sound for what follows it. -/
theorem Answers.memory_stop {nodes : List Tree}
    (answers : setting.Answers room production task parameters cursor
      (.matched nodes stop, memory)) :
    memory.Sound setting.grammar stop.whole := by
  rw [answers.derives.whole_eq]
  exact answers.memory

/-- An outcome other than a match is handed on by a rule that hands on what stops it. -/
theorem Answers.pass {other : Task} {place : Cursor} (whole : place.whole = cursor.whole)
    (answers : setting.Answers room production task parameters place (outcome, memory))
    (rule : Derives setting.grammar (setting.depth room) production task parameters place outcome →
      Derives setting.grammar (setting.depth room) production other parameters cursor outcome) :
    setting.Answers room production other parameters cursor (outcome, memory) :=
  ⟨whole ▸ answers.memory, answers.outcome.imp_right rule⟩

end Setting

/-! ### Repetitions -/

theorem closeRepetition_eq (minimum count : Nat) (gathered : List Tree) (stop : Cursor) :
    closeRepetition minimum count gathered stop =
      (Outcome.check (minimum - count = 0) stop).prepend gathered.reverse := by
  unfold closeRepetition
  by_cases enough : minimum ≤ count
  · simp [enough, Nat.sub_eq_zero_of_le enough]
  · simp [enough, Nat.sub_ne_zero_of_lt (Nat.lt_of_not_le enough)]

/-- The number of repetitions still allowed, as far as there is a bound. -/
def allowance (unbounded : Bool) (budget : Nat) : Option Nat :=
  if unbounded then none else some budget

private theorem repetition_answers {setting : Setting} {room : Nat} {production : String}
    {child : Node} {parameters : Parameters} {step : Step}
    (steps : setting.StepAnswers room production (.node child) parameters step) (minimum : Nat)
    (unbounded : Bool) (budget count : Nat) (gathered : List Tree) (cursor : Cursor)
    (memory : Memory) (sound : memory.Sound setting.grammar cursor.whole)
    (enough : unbounded = true → cursor.rest.length < budget) :
    ∃ outcome after,
      repetition production step minimum unbounded budget count gathered cursor memory =
        (outcome.prepend gathered.reverse, after) ∧
      setting.Answers room production
        (.repetition child (minimum - count) (allowance unbounded budget)) parameters cursor
        (outcome, after) := by
  induction budget generalizing count gathered cursor memory with
  | zero =>
      have bounded : unbounded = false := by simpa using enough
      subst bounded
      exact ⟨.check (minimum - count = 0) cursor, memory,
        by rw [repetition, closeRepetition_eq], sound, .inr .full⟩
  | succ budget induction =>
      have unfilled : allowance unbounded (budget + 1) ≠ some 0 := by
        cases unbounded <;> simp [allowance]
      have answers := steps cursor memory sound
      rw [repetition]
      match reply : step cursor memory with
      | (.failed error, after) =>
          rw [reply] at answers
          exact ⟨.failed error, after, rfl, answers.pass rfl (.repetitionFailed unfilled)⟩
      | (.unmatched, after) =>
          rw [reply] at answers
          exact ⟨.check (minimum - count = 0) cursor, after, by simp only [closeRepetition_eq],
            answers.memory, .inr (.exhausted unfilled answers.derives_unmatched)⟩
      | (.matched nodes stop, after) =>
          rw [reply] at answers
          have inside := answers.derives
          by_cases stuck : unbounded = true ∧ stop.offset = cursor.offset
          · obtain ⟨rfl, offset⟩ := stuck
            obtain rfl := Cursor.eq_of_offset_eq inside.whole_eq offset
            refine ⟨(Outcome.check (minimum - count - 1 = 0) stop).prepend nodes,
              after.log (.zeroWidth production stop.offset), ?_, answers.memory,
              .inr (.zeroWidth inside)⟩
            simp [closeRepetition_eq, Nat.sub_sub, List.reverseAux_eq]
          · have moves : unbounded = true → stop ≠ cursor := by
              rintro unbounded rfl
              exact stuck ⟨unbounded, rfl⟩
            have shorter : unbounded = true → stop.rest.length < budget := by
              intro unbounded
              have less := inside.length_rest_lt (moves unbounded)
              have := enough unbounded
              omega
            obtain ⟨outcome, last, same, more⟩ := induction (count + 1) (nodes.reverseAux gathered)
              stop after answers.memory_stop shorter
            refine ⟨outcome.prepend nodes, last, ?_, inside.whole_eq ▸ more.memory, ?_⟩
            · have notStuck : (unbounded && decide (stop.offset = cursor.offset)) = false := by
                simpa using stuck
              simp only [notStuck, Bool.false_eq_true, if_false, same]
              simp [List.reverseAux_eq]
            · refine more.outcome.imp (fun limit => ?_) (fun derives => ?_)
              · simp only at limit
                rw [limit]
                rfl
              · refine .again unfilled inside ?_ ?_
                · intro none
                  apply moves
                  cases unbounded
                  · cases none
                  · rfl
                · cases unbounded <;> simpa [allowance, Nat.sub_sub] using derives

/-! ### Expressions -/

/-- Every call, from whatever production it is made, is answered soundly. -/
def Setting.CallsAnswer (setting : Setting) (room : Nat) (invoke : Invoke) : Prop :=
  ∀ (caller name : String) (arguments : List Binding) (parameters : Parameters),
    setting.StepAnswers room caller (.node (.reference name arguments)) parameters
      (invoke caller name arguments parameters)

namespace Node

variable {setting : Setting} {room : Nat} {invoke : Invoke}

theorem evaluateAll_matched {production : String} {node : Node} {rest : List Node}
    {parameters : Parameters} {cursor stop : Cursor} {memory after : Memory} {nodes : List Tree}
    (reply : evaluate production invoke node parameters cursor memory =
      (.matched nodes stop, after)) :
    evaluateAll production invoke (node :: rest) parameters cursor memory =
      ((evaluateAll production invoke rest parameters stop after).1.prepend nodes,
        (evaluateAll production invoke rest parameters stop after).2) := by
  rw [evaluateAll, reply]
  dsimp only
  split
  · rename_i more last memory replyRest
    simp [replyRest]
  · rename_i outcome memory notMatched replyRest
    rw [replyRest]
    cases outcome with
    | matched more last => exact absurd rfl (notMatched more last)
    | unmatched | failed error => rfl

mutual

theorem evaluate_answers (calls : setting.CallsAnswer room invoke) (production : String)
    (parameters : Parameters) : (node : Node) →
      setting.StepAnswers room production (.node node) parameters
        (evaluate production invoke node parameters)
  | .empty, cursor, memory, sound => ⟨sound, .inr .empty⟩
  | .startOfLine, cursor, memory, sound => ⟨sound, .inr .startOfLine⟩
  | .endOfInput, cursor, memory, sound => ⟨sound, .inr .endOfInput⟩
  | .literal text, cursor, memory, sound => by
      rw [evaluate]
      cases skipped : cursor.skip? text.toList with
      | some stop => exact ⟨sound, .inr (.literal (Cursor.skip?_eq_some_iff.mp skipped))⟩
      | none => exact ⟨sound, .inr (.otherLiteral (Cursor.skip?_eq_none_iff.mp skipped))⟩
  | .chars set, cursor, memory, sound => by
      rw [evaluate]
      cases next : cursor.next? with
      | none =>
          have ends := Cursor.next?_eq_none_iff.mp next
          refine ⟨sound, .inr (.otherChars fun char stop spans => ?_)⟩
          simp [Cursor.Spans, ends] at spans
      | some pair =>
          obtain ⟨char, stop⟩ := pair
          have spans := Cursor.next?_eq_some_iff.mp next
          refine ⟨sound, .inr ?_⟩
          cases member : set.contains char with
          | true => simpa [member] using Derives.chars spans member
          | false =>
              simp only [member, Bool.false_eq_true, if_false]
              refine .otherChars fun other stop' spans' => ?_
              rw [← (spans.unique_char spans').1, member]
  | .reference name arguments, cursor, memory, sound => by
      rw [evaluate]
      exact calls production name arguments parameters cursor memory sound
  | .sequence children, cursor, memory, sound => by
      rw [evaluate]
      exact evaluateAll_answers calls production parameters children cursor memory sound
  | .first children, cursor, memory, sound => by
      rw [evaluate]
      exact evaluateFirst_answers calls production parameters children cursor memory sound
  | .repeated child minimum maximum, cursor, memory, sound => by
      have steps := evaluate_answers calls production parameters child
      rw [evaluate]
      cases atLeast : minimum.resolve parameters with
      | error cause => exact ⟨sound, .inr (.minimumUnbound atLeast)⟩
      | ok least =>
          cases maximum with
          | none =>
              obtain ⟨outcome, after, same, answers⟩ := repetition_answers steps least true
                (cursor.rest.length + 1) 0 [] cursor memory sound fun _ => Nat.lt_succ_self _
              simp only [same, List.reverse_nil, Outcome.prepend_nil]
              exact answers.pass rfl (.unbounded atLeast)
          | some maximum =>
              dsimp only
              cases atMost : maximum.resolve parameters with
              | error cause => exact ⟨sound, .inr (.maximumUnbound atLeast atMost)⟩
              | ok most =>
                  obtain ⟨outcome, after, same, answers⟩ := repetition_answers steps least false
                    most 0 [] cursor memory sound (by simp)
                  simp only [same, List.reverse_nil, Outcome.prepend_nil]
                  exact answers.pass rfl (.bounded atLeast atMost)
  | .lookahead child positive, cursor, memory, sound => by
      have answers := evaluate_answers calls production parameters child cursor memory sound
      rw [evaluate]
      match reply : evaluate production invoke child parameters cursor memory with
      | (.failed error, after) =>
          rw [reply] at answers
          exact answers.pass rfl .lookaheadFailed
      | (.matched nodes stop, after) =>
          rw [reply] at answers
          exact ⟨answers.memory, .inr (.lookaheadMatched answers.derives)⟩
      | (.unmatched, after) =>
          rw [reply] at answers
          refine ⟨answers.memory, .inr ?_⟩
          have derives : Derives _ _ _ (.node (.lookahead child positive)) _ _ _ :=
            .lookaheadUnmatched answers.derives_unmatched
          cases positive <;> exact derives
  | .lookbehind child, cursor, memory, sound => by
      rw [evaluate]
      cases previous : cursor.previous? with
      | none =>
          exact ⟨sound, .inr (.lookbehindStart (Cursor.previous?_eq_none_iff.mp previous))⟩
      | some before =>
          obtain ⟨char, spans⟩ := Cursor.previous?_eq_some_iff.mp previous
          have whole := spans.whole_eq
          dsimp only
          have answers := evaluate_answers calls production parameters child before memory
            (whole ▸ sound)
          match reply : evaluate production invoke child parameters before memory with
          | (.failed error, after) =>
              rw [reply] at answers
              exact answers.pass whole.symm fun inside => .lookbehindStop spans inside rfl
          | (.unmatched, after) =>
              rw [reply] at answers
              exact answers.pass whole.symm fun inside => .lookbehindStop spans inside rfl
          | (.matched nodes stop, after) =>
              rw [reply] at answers
              have inside := answers.derives
              refine ⟨whole ▸ answers.memory, .inr ?_⟩
              by_cases offset : stop.offset = cursor.offset
              · obtain rfl := Cursor.eq_of_offset_eq (inside.whole_eq.trans whole.symm) offset
                simpa using Derives.lookbehindMatched spans inside
              · simp only [offset, if_false]
                exact .lookbehindMissed spans inside fun same => offset (same ▸ rfl)
  | .detectIndentation minimum child, cursor, memory, sound => by
      rw [evaluate]
      cases atLeast : minimum.resolveInt parameters with
      | error cause => exact ⟨sound, .inr (.indentationUnbound atLeast)⟩
      | ok least =>
          by_cases less : Int32.ofNat (min cursor.spacesAhead maxIndentation) < least
          · simp only [less, if_true]
            exact ⟨sound, .inr (.shallow atLeast less)⟩
          · simp only [less, if_false]
            have answers := evaluate_answers calls production
              { parameters with
                m := some (Int32.ofNat (min cursor.spacesAhead maxIndentation)) }
              child cursor memory sound
            exact ⟨answers.memory, answers.outcome.imp_right (.indentation atLeast rfl less)⟩
  | .cases arms, cursor, memory, sound => by
      rw [evaluate]
      exact evaluateCases_answers calls production parameters arms cursor memory sound

private theorem evaluateAll_answers (calls : setting.CallsAnswer room invoke) (production : String)
    (parameters : Parameters) : (children : List Node) →
      setting.StepAnswers room production (.node (.sequence children)) parameters
        (evaluateAll production invoke children parameters)
  | [], cursor, memory, sound => ⟨sound, .inr .sequenceNil⟩
  | node :: rest, cursor, memory, sound => by
      have answers := evaluate_answers calls production parameters node cursor memory sound
      match reply : evaluate production invoke node parameters cursor memory with
      | (.failed error, after) =>
          rw [reply] at answers
          rw [evaluateAll, reply]
          exact answers.pass rfl fun head => .sequenceStop head rfl
      | (.unmatched, after) =>
          rw [reply] at answers
          rw [evaluateAll, reply]
          exact answers.pass rfl fun head => .sequenceStop head rfl
      | (.matched nodes stop, after) =>
          rw [reply] at answers
          have head := answers.derives
          have later := evaluateAll_answers calls production parameters rest stop after
            answers.memory_stop
          rw [evaluateAll_matched reply]
          refine ⟨head.whole_eq ▸ later.memory, later.outcome.imp (fun limit => ?_)
            (.sequenceCons head)⟩
          simp only [limit, Outcome.prepend_failed]

private theorem evaluateFirst_answers (calls : setting.CallsAnswer room invoke)
    (production : String) (parameters : Parameters) : (children : List Node) →
      setting.StepAnswers room production (.node (.first children)) parameters
        (evaluateFirst production invoke children parameters)
  | [], cursor, memory, sound => ⟨sound, .inr .firstNil⟩
  | node :: rest, cursor, memory, sound => by
      have answers := evaluate_answers calls production parameters node cursor memory sound
      rw [evaluateFirst]
      match reply : evaluate production invoke node parameters cursor memory with
      | (.failed error, after) =>
          rw [reply] at answers
          exact answers.pass rfl fun head => .firstStop head (by simp)
      | (.matched nodes stop, after) =>
          rw [reply] at answers
          exact answers.pass rfl fun head => .firstStop head (by simp)
      | (.unmatched, after) =>
          rw [reply] at answers
          have later := evaluateFirst_answers calls production parameters rest cursor after
            answers.memory
          exact later.pass rfl (.firstNext answers.derives_unmatched)

private theorem evaluateCases_answers (calls : setting.CallsAnswer room invoke)
    (production : String) (parameters : Parameters) : (arms : List (Parameters × Node)) →
      setting.StepAnswers room production (.node (.cases arms)) parameters
        (evaluateCases production invoke arms parameters)
  | [], cursor, memory, sound => ⟨sound, .inr .uncovered⟩
  | (pattern, body) :: rest, cursor, memory, sound => by
      rw [evaluateCases]
      cases satisfies : parameters.satisfies pattern with
      | true =>
          have answers := evaluate_answers calls production parameters body cursor memory sound
          exact answers.pass rfl (.covered satisfies)
      | false =>
          have answers := evaluateCases_answers calls production parameters rest cursor memory
            sound
          exact answers.pass rfl (.otherCase satisfies)

end

end Node

/-! ### Calls -/

namespace Setting

variable {setting : Setting}

@[simp] theorem conclude_fst (call : Call) (reply : Reply) :
    (setting.conclude call reply).1 = reply.1.enclose call := by
  obtain ⟨outcome, memory⟩ := reply
  cases outcome <;> rfl

section Invoke

variable {room : Nat} {caller name : String} {arguments : List Binding}
  {parameters bound : Parameters} {cursor : Cursor} {memory : Memory} {called : Production}

theorem invoke_undefined (missing : setting.grammar.get? name = none) :
    setting.invoke room caller name arguments parameters cursor memory =
      (.failed (.undefinedProduction name caller), memory) := by
  rw [invoke, missing]

theorem invoke_arity (found : setting.grammar.get? name = some called)
    (differ : arguments.length ≠ called.formals.length) :
    setting.invoke room caller name arguments parameters cursor memory =
      (.failed (.arityMismatch name called.formals.length arguments.length), memory) := by
  rw [invoke, found]
  simp only [differ, if_false]

theorem invoke_unbound {error : RunError} (found : setting.grammar.get? name = some called)
    (counts : arguments.length = called.formals.length)
    (fails : bindArguments caller name parameters called.formals arguments .empty =
      .error error) :
    setting.invoke room caller name arguments parameters cursor memory =
      (.failed error, memory) := by
  rw [invoke, found]
  simp only [counts, if_true, fails]

variable (found : setting.grammar.get? name = some called)
  (counts : arguments.length = called.formals.length)
  (binds : bindArguments caller name parameters called.formals arguments .empty = .ok bound)

include found counts binds

theorem invoke_known
    (known : (setting.cached && memory.failures.contains ⟨name, bound, cursor.offset⟩) = true) :
    setting.invoke room caller name arguments parameters cursor memory =
      (.unmatched, memory.log (.hit ⟨name, bound, cursor.offset⟩)) := by
  rw [invoke, found]
  simp only [counts, if_true, binds, known]

variable
  (unknown : (setting.cached && memory.failures.contains ⟨name, bound, cursor.offset⟩) = false)

include unknown

theorem invoke_zero :
    setting.invoke 0 caller name arguments parameters cursor memory =
      (.failed (.recursionLimitExceeded setting.limit), memory) := by
  rw [invoke, found]
  simp only [counts, if_true, binds, unknown, Bool.false_eq_true, if_false]

theorem invoke_succ :
    setting.invoke (room + 1) caller name arguments parameters cursor memory =
      setting.conclude ⟨name, bound, cursor.offset⟩
        (called.body.evaluate name (setting.invoke room) bound cursor
          (memory.log (.enter ⟨name, bound, cursor.offset⟩))) := by
  rw [invoke, found]
  simp only [counts, if_true, binds, unknown, Bool.false_eq_true, if_false]

end Invoke

/-- A call that is not entered is answered soundly, by an error or by what is remembered. -/
theorem answers_of_entered {room : Nat} {caller name : String} {arguments : List Binding}
    {parameters : Parameters} {cursor : Cursor} {memory : Memory}
    (sound : memory.Sound setting.grammar cursor.whole)
    (entered : ∀ (called : Production) (bound : Parameters),
      setting.grammar.get? name = some called → arguments.length = called.formals.length →
      bindArguments caller name parameters called.formals arguments .empty = .ok bound →
      (setting.cached && memory.failures.contains ⟨name, bound, cursor.offset⟩) = false →
      setting.Answers room caller (.node (.reference name arguments)) parameters cursor
        (setting.invoke room caller name arguments parameters cursor memory)) :
    setting.Answers room caller (.node (.reference name arguments)) parameters cursor
      (setting.invoke room caller name arguments parameters cursor memory) := by
  cases found : setting.grammar.get? name with
  | none =>
      rw [invoke_undefined found]
      exact ⟨sound, .inr (.undefined found)⟩
  | some called =>
      by_cases counts : arguments.length = called.formals.length
      · cases binds : bindArguments caller name parameters called.formals arguments .empty with
        | error error =>
            rw [invoke_unbound found counts binds]
            exact ⟨sound, .inr (.unbound found counts binds)⟩
        | ok bound =>
            cases known :
                (setting.cached && memory.failures.contains ⟨name, bound, cursor.offset⟩) with
            | false => exact entered called bound found counts binds known
            | true =>
                rw [invoke_known found counts binds known]
                rw [Bool.and_eq_true] at known
                have body := sound ⟨name, bound, cursor.offset⟩ known.2 called found cursor rfl rfl
                have unbounded : setting.depth room = ⊤ := by simp [depth, known.1]
                refine ⟨sound, .inr ?_⟩
                rw [unbounded]
                exact .reference le_top found counts binds body
      · rw [invoke_arity found counts]
        exact ⟨sound, .inr (.arity found counts)⟩

/-- A call is remembered as a failure only when its body has been found to fail. -/
theorem conclude_answers {room : Nat} {caller name : String} {arguments : List Binding}
    {parameters bound : Parameters} {cursor : Cursor} {called : Production} {reply : Reply}
    (found : setting.grammar.get? name = some called)
    (counts : arguments.length = called.formals.length)
    (binds : bindArguments caller name parameters called.formals arguments .empty = .ok bound)
    (answers : setting.Answers room name (.node called.body) bound cursor reply) :
    setting.Answers (room + 1) caller (.node (.reference name arguments)) parameters cursor
      (setting.conclude ⟨name, bound, cursor.offset⟩ reply) := by
  obtain ⟨outcome, memory⟩ := reply
  refine ⟨?_, ?_⟩
  · cases outcome with
    | matched nodes stop => exact answers.memory
    | failed error => exact answers.memory
    | unmatched =>
        simp only [conclude]
        split
        · refine answers.memory.log _ |>.remember fun other found' place whole offset => ?_
          obtain rfl := Option.some.inj (found.symm.trans found')
          obtain rfl := Cursor.eq_of_offset_eq whole offset
          exact answers.derives_unmatched.mono le_top
        · exact answers.memory
  · rw [conclude_fst]
    refine answers.outcome.imp (fun limit => ?_)
      (.reference (setting.depth_succ room) found counts binds)
    rw [limit]
    rfl

theorem invoke_answers (setting : Setting) (room : Nat) :
    setting.CallsAnswer room (setting.invoke room) := by
  induction room with
  | zero =>
      intro caller name arguments parameters cursor memory sound
      refine answers_of_entered sound fun called bound found counts binds unknown => ?_
      rw [invoke_zero found counts binds unknown]
      exact ⟨sound, .inl rfl⟩
  | succ room induction =>
      intro caller name arguments parameters cursor memory sound
      refine answers_of_entered sound fun called bound found counts binds unknown => ?_
      rw [invoke_succ found counts binds unknown]
      exact conclude_answers found counts binds
        (called.body.evaluate_answers induction name bound cursor _ (sound.log _))

end Setting

end ParametricGrammar
