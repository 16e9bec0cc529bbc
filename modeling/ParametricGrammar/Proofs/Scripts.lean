import ParametricGrammar.Proofs.Completeness
/-!
# Evaluation as a script of calls

Which calls the evaluation of an expression makes, and with which result, depends on nothing but
the answers to the calls that it made before. The script of an expression at a place lays this
out. To evaluate the expression is to run its script, so what evaluation does to the memory is
proved by induction on scripts, for all kinds of expressions at once.
-/

namespace ParametricGrammar

/-- A call as a body makes it, with the parameters of the caller. -/
structure Ask where
  name : String
  arguments : List Binding
  parameters : Parameters
  cursor : Cursor

/-- The reply to a call that the body of a production makes. -/
def Invoke.reply (invoke : Invoke) (production : String) (ask : Ask) (memory : Memory) : Reply :=
  invoke production ask.name ask.arguments ask.parameters ask.cursor memory

/-- What an evaluation does next, up to its outcome. An error of a call ends the run. -/
inductive Script where
  | done (outcome : Outcome)
  /-- Reports that a repetition stopped after an empty match. -/
  | note (production : String) (offset : Nat) (later : Script)
  /-- Makes a call and goes on with what it matched, or knowing that it matched nothing. -/
  | call (ask : Ask) (onMatch : List Tree → Cursor → Script) (onMiss : Script)

namespace Script

/-- Runs a script with an evaluation of calls. -/
def run (calls : Ask → Memory → Reply) : Script → Memory → Reply
  | .done outcome, memory => (outcome, memory)
  | .note production offset later, memory =>
      later.run calls (memory.log (.zeroWidth production offset))
  | .call ask onMatch onMiss, memory =>
      match calls ask memory with
      | (.matched nodes stop, memory) => (onMatch nodes stop).run calls memory
      | (.unmatched, memory) => onMiss.run calls memory
      | (.failed error, memory) => (.failed error, memory)

/-- Goes on behind the end of a script, depending on its outcome. -/
def andThen (script : Script) (onMatch : List Tree → Cursor → Script) (onMiss : Script) : Script :=
  match script with
  | .done (.matched nodes stop) => onMatch nodes stop
  | .done .unmatched => onMiss
  | .done (.failed error) => .done (.failed error)
  | .note production offset later => .note production offset (later.andThen onMatch onMiss)
  | .call ask matched unmatched =>
      .call ask (fun nodes stop => (matched nodes stop).andThen onMatch onMiss)
        (unmatched.andThen onMatch onMiss)

private theorem run_andThen (calls : Ask → Memory → Reply) (onMatch : List Tree → Cursor → Script)
    (onMiss : Script) (script : Script) (memory : Memory) :
    (script.andThen onMatch onMiss).run calls memory =
      match script.run calls memory with
      | (.matched nodes stop, memory) => (onMatch nodes stop).run calls memory
      | (.unmatched, memory) => onMiss.run calls memory
      | (.failed error, memory) => (.failed error, memory) := by
  induction script generalizing memory with
  | done outcome => cases outcome <;> rfl
  | note production offset later induction => exact induction _
  | call ask matched unmatched hit miss =>
      rw [andThen, run, run]
      match calls ask memory with
      | (.matched nodes stop, after) => exact hit nodes stop after
      | (.unmatched, after) => exact miss after
      | (.failed error, after) => rfl

/-- The script of a repetition, after some repetitions already made. -/
def repetition (production : String) (step : Cursor → Script) (minimum : Nat) (unbounded : Bool) :
    Nat → Nat → List Tree → Cursor → Script
  | 0, count, nodes, cursor => .done (closeRepetition minimum count nodes cursor)
  | budget + 1, count, nodes, cursor =>
      (step cursor).andThen
        (fun more stop =>
          if unbounded && stop.offset = cursor.offset then
            .note production stop.offset
              (.done (closeRepetition minimum (count + 1) (more.reverseAux nodes) stop))
          else
            repetition production step minimum unbounded budget (count + 1)
              (more.reverseAux nodes) stop)
        (.done (closeRepetition minimum count nodes cursor))

private theorem repetition_run {calls : Ask → Memory → Reply} {step : Step}
    {script : Cursor → Script}
    (same : ∀ cursor memory, step cursor memory = (script cursor).run calls memory)
    (production : String) (minimum : Nat) (unbounded : Bool) (budget count : Nat)
    (nodes : List Tree) (cursor : Cursor) (memory : Memory) :
    ParametricGrammar.repetition production step minimum unbounded budget count nodes cursor
        memory =
      (repetition production script minimum unbounded budget count nodes cursor).run calls
        memory := by
  induction budget generalizing count nodes cursor memory with
  | zero => rfl
  | succ budget induction =>
      rw [ParametricGrammar.repetition, repetition, run_andThen, ← same]
      cases step cursor memory with
      | mk result after =>
      cases result with
      | failed error => rfl
      | unmatched => rfl
      | matched more stop =>
          dsimp only
          split
          · rfl
          · exact induction _ _ _ _

end Script

namespace Node

mutual

/-- The script of an expression in the body of a production, at a place. -/
def script (production : String) : Node → Parameters → Cursor → Script
  | .empty, _, cursor => .done (.matched [] cursor)
  | .startOfLine, _, cursor => .done (.check cursor.startsLine cursor)
  | .endOfInput, _, cursor => .done (.check cursor.rest.isEmpty cursor)
  | .literal text, _, cursor =>
      match cursor.skip? text.toList with
      | some stop => .done (.matched [] stop)
      | none => .done .unmatched
  | .chars set, _, cursor =>
      match cursor.next? with
      | some (char, stop) => .done (.check (set.contains char) stop)
      | none => .done .unmatched
  | .reference name arguments, parameters, cursor =>
      .call ⟨name, arguments, parameters, cursor⟩ (fun nodes stop => .done (.matched nodes stop))
        (.done .unmatched)
  | .sequence children, parameters, cursor => scriptAll production children parameters cursor
  | .first children, parameters, cursor => scriptFirst production children parameters cursor
  | .repeated child minimum maximum, parameters, cursor =>
      match minimum.resolve parameters with
      | .error cause => .done (.failed (.parameter production cause))
      | .ok least =>
          match maximum with
          | none =>
              .repetition production (script production child parameters) least true
                (cursor.rest.length + 1) 0 [] cursor
          | some bound =>
              match bound.resolve parameters with
              | .error cause => .done (.failed (.parameter production cause))
              | .ok most =>
                  .repetition production (script production child parameters) least false most 0
                    [] cursor
  | .lookahead child positive, parameters, cursor =>
      (script production child parameters cursor).andThen
        (fun _ _ => .done (.check positive cursor)) (.done (.check (!positive) cursor))
  | .lookbehind child, parameters, cursor =>
      match cursor.previous? with
      | none => .done .unmatched
      | some before =>
          (script production child parameters before).andThen
            (fun _ stop => .done (.check (stop.offset = cursor.offset) cursor))
            (.done .unmatched)
  | .detectIndentation minimum child, parameters, cursor =>
      let detected := Int32.ofNat (min cursor.spacesAhead maxIndentation)
      match minimum.resolveInt parameters with
      | .error cause => .done (.failed (.parameter production cause))
      | .ok least =>
          if detected < least then .done .unmatched
          else script production child { parameters with m := some detected } cursor
  | .cases arms, parameters, cursor => scriptCases production arms parameters cursor

/-- The script of expressions one after the other. -/
def scriptAll (production : String) : List Node → Parameters → Cursor → Script
  | [], _, cursor => .done (.matched [] cursor)
  | node :: rest, parameters, cursor =>
      (script production node parameters cursor).andThen
        (fun nodes stop =>
          (scriptAll production rest parameters stop).andThen
            (fun more stop => .done (.matched (nodes ++ more) stop)) (.done .unmatched))
        (.done .unmatched)

/-- The script of alternatives. -/
def scriptFirst (production : String) : List Node → Parameters → Cursor → Script
  | [], _, _ => .done .unmatched
  | node :: rest, parameters, cursor =>
      (script production node parameters cursor).andThen
        (fun nodes stop => .done (.matched nodes stop))
        (scriptFirst production rest parameters cursor)

/-- The script of the first case that the parameters satisfy. -/
def scriptCases (production : String) : List (Parameters × Node) → Parameters → Cursor → Script
  | [], parameters, _ => .done (.failed (.uncoveredContext production parameters))
  | (pattern, body) :: rest, parameters, cursor =>
      if parameters.satisfies pattern then script production body parameters cursor
      else scriptCases production rest parameters cursor

end

mutual

/-- To evaluate an expression is to run its script. -/
theorem evaluate_eq_run (production : String) (invoke : Invoke) :
    (node : Node) → (parameters : Parameters) → (cursor : Cursor) → (memory : Memory) →
      evaluate production invoke node parameters cursor memory =
        (script production node parameters cursor).run (invoke.reply production) memory
  | .empty, _, _, _ => rfl
  | .startOfLine, _, _, _ => rfl
  | .endOfInput, _, _, _ => rfl
  | .literal text, _, cursor, _ => by
      rw [evaluate, script]
      cases cursor.skip? text.toList <;> rfl
  | .chars set, _, cursor, _ => by
      rw [evaluate, script]
      cases cursor.next? <;> rfl
  | .reference name arguments, parameters, cursor, memory => by
      rw [evaluate, script, Script.run]
      split
      · rename_i reply
        exact reply
      · rename_i reply
        exact reply
      · assumption
  | .sequence children, parameters, cursor, memory => by
      rw [evaluate, script, evaluateAll_eq_run]
  | .first children, parameters, cursor, memory => by
      rw [evaluate, script, evaluateFirst_eq_run]
  | .repeated child minimum maximum, parameters, cursor, memory => by
      have same := evaluate_eq_run production invoke child parameters
      rw [evaluate, script]
      cases minimum.resolve parameters with
      | error cause => rfl
      | ok least =>
          cases maximum with
          | none => exact Script.repetition_run same ..
          | some bound =>
              dsimp only
              cases bound.resolve parameters with
              | error cause => rfl
              | ok most => exact Script.repetition_run same ..
  | .lookahead child positive, parameters, cursor, memory => by
      rw [evaluate, script, Script.run_andThen, ← evaluate_eq_run]
      match evaluate production invoke child parameters cursor memory with
      | (.failed error, after) => rfl
      | (.matched nodes stop, after) => rfl
      | (.unmatched, after) => cases positive <;> rfl
  | .lookbehind child, parameters, cursor, memory => by
      rw [evaluate, script]
      cases cursor.previous? with
      | none => rfl
      | some before =>
          dsimp only
          rw [Script.run_andThen, ← evaluate_eq_run]
          match evaluate production invoke child parameters before memory with
          | (.failed error, after) => rfl
          | (.unmatched, after) => rfl
          | (.matched nodes stop, after) => simp [Script.run, Outcome.check]
  | .detectIndentation minimum child, parameters, cursor, memory => by
      rw [evaluate, script]
      cases minimum.resolveInt parameters with
      | error cause => rfl
      | ok least =>
          dsimp only
          split
          · rfl
          · exact evaluate_eq_run production invoke child _ cursor memory
  | .cases arms, parameters, cursor, memory => by
      rw [evaluate, script, evaluateCases_eq_run]

private theorem evaluateAll_eq_run (production : String) (invoke : Invoke) :
    (children : List Node) → (parameters : Parameters) → (cursor : Cursor) → (memory : Memory) →
      evaluateAll production invoke children parameters cursor memory =
        (scriptAll production children parameters cursor).run (invoke.reply production) memory
  | [], _, _, _ => rfl
  | node :: rest, parameters, cursor, memory => by
      rw [evaluateAll, scriptAll, Script.run_andThen, ← evaluate_eq_run]
      match evaluate production invoke node parameters cursor memory with
      | (.failed error, after) => rfl
      | (.unmatched, after) => rfl
      | (.matched nodes stop, after) =>
          dsimp only
          rw [Script.run_andThen, ← evaluateAll_eq_run]
          match evaluateAll production invoke rest parameters stop after with
          | (.failed error, last) => rfl
          | (.unmatched, last) => rfl
          | (.matched more stop, last) => rfl

private theorem evaluateFirst_eq_run (production : String) (invoke : Invoke) :
    (children : List Node) → (parameters : Parameters) → (cursor : Cursor) → (memory : Memory) →
      evaluateFirst production invoke children parameters cursor memory =
        (scriptFirst production children parameters cursor).run (invoke.reply production) memory
  | [], _, _, _ => rfl
  | node :: rest, parameters, cursor, memory => by
      rw [evaluateFirst, scriptFirst, Script.run_andThen, ← evaluate_eq_run]
      match evaluate production invoke node parameters cursor memory with
      | (.failed error, after) => rfl
      | (.matched nodes stop, after) => rfl
      | (.unmatched, after) => exact evaluateFirst_eq_run ..

private theorem evaluateCases_eq_run (production : String) (invoke : Invoke) :
    (arms : List (Parameters × Node)) → (parameters : Parameters) → (cursor : Cursor) →
      (memory : Memory) →
      evaluateCases production invoke arms parameters cursor memory =
        (scriptCases production arms parameters cursor).run (invoke.reply production) memory
  | [], _, _, _ => rfl
  | (pattern, body) :: rest, parameters, cursor, memory => by
      rw [evaluateCases, scriptCases]
      split
      · exact evaluate_eq_run ..
      · exact evaluateCases_eq_run ..

end

end Node

/-! ### Scripts on a text -/

/-- An outcome that can be written down at once: a match stays in the text, and the limit is not
exceeded. -/
def Outcome.Stays (text : List Char) : Outcome → Prop
  | .matched _ stop => stop.whole = text
  | .unmatched => True
  | .failed error => ∀ limit, error ≠ .recursionLimitExceeded limit

private theorem Outcome.stays_check {text : List Char} {cursor : Cursor}
    (whole : cursor.whole = text) (holds : Bool) : (check holds cursor).Stays text := by
  cases holds with
  | true => exact whole
  | false => trivial

private theorem Outcome.stays_closeRepetition {text : List Char} {cursor : Cursor}
    (whole : cursor.whole = text) (minimum count : Nat) (nodes : List Tree) :
    (closeRepetition minimum count nodes cursor).Stays text := by
  unfold closeRepetition
  split
  · exact whole
  · trivial

namespace Script

/-- Calls are made within the text as long as they match within it. -/
def Stays (text : List Char) : Script → Prop
  | .done outcome => outcome.Stays text
  | .note _ _ later => later.Stays text
  | .call ask onMatch onMiss =>
      ask.cursor.whole = text ∧
        (∀ nodes stop, stop.whole = text → (onMatch nodes stop).Stays text) ∧ onMiss.Stays text

variable {text : List Char} {script : Script}

private theorem Stays.andThen {onMatch : List Tree → Cursor → Script} {onMiss : Script}
    (stays : script.Stays text)
    (matched : ∀ nodes stop, stop.whole = text → (onMatch nodes stop).Stays text)
    (unmatched : onMiss.Stays text) : (script.andThen onMatch onMiss).Stays text := by
  induction script with
  | done outcome =>
      cases outcome with
      | matched nodes stop => exact matched nodes stop stays
      | unmatched => exact unmatched
      | failed error => exact stays
  | note production offset later induction => exact induction stays
  | call ask _ _ hit miss =>
      obtain ⟨whole, hits, misses⟩ := stays
      exact ⟨whole, fun nodes stop inside => hit nodes stop (hits nodes stop inside),
        miss misses⟩

private theorem stays_repetition {step : Cursor → Script}
    (steps : ∀ cursor, cursor.whole = text → (step cursor).Stays text) (production : String)
    (minimum : Nat) (unbounded : Bool) (budget count : Nat) (nodes : List Tree) {cursor : Cursor}
    (whole : cursor.whole = text) :
    (repetition production step minimum unbounded budget count nodes cursor).Stays text := by
  induction budget generalizing count nodes cursor with
  | zero => exact Outcome.stays_closeRepetition whole ..
  | succ budget induction =>
      refine (steps cursor whole).andThen (fun more stop inside => ?_)
        (Outcome.stays_closeRepetition whole ..)
      split
      · exact Outcome.stays_closeRepetition inside ..
      · exact induction _ _ inside

end Script

namespace Node

variable {text : List Char} (production : String)

mutual

theorem stays_script : (node : Node) → (parameters : Parameters) → {cursor : Cursor} →
    cursor.whole = text → (script production node parameters cursor).Stays text
  | .empty, _, _, whole => whole
  | .startOfLine, _, _, whole => Outcome.stays_check whole _
  | .endOfInput, _, _, whole => Outcome.stays_check whole _
  | .literal spelling, _, cursor, whole => by
      rw [script]
      cases skipped : cursor.skip? spelling.toList with
      | none => trivial
      | some stop => exact (Cursor.skip?_eq_some_iff.mp skipped).whole_eq.trans whole
  | .chars set, _, cursor, whole => by
      rw [script]
      cases next : cursor.next? with
      | none => trivial
      | some pair =>
          exact Outcome.stays_check ((Cursor.next?_eq_some_iff.mp next).whole_eq.trans whole) _
  | .reference _ _, _, _, whole => ⟨whole, fun _ _ inside => inside, trivial⟩
  | .sequence children, parameters, _, whole => by
      rw [script]
      exact stays_scriptAll children parameters whole
  | .first children, parameters, _, whole => by
      rw [script]
      exact stays_scriptFirst children parameters whole
  | .repeated child minimum maximum, parameters, _, whole => by
      have steps := fun cursor (whole : Cursor.whole cursor = text) =>
        stays_script child parameters whole
      rw [script]
      cases minimum.resolve parameters with
      | error cause => simp [Script.Stays, Outcome.Stays]
      | ok least =>
          cases maximum with
          | none => exact Script.stays_repetition steps _ _ _ _ _ _ whole
          | some bound =>
              dsimp only
              cases bound.resolve parameters with
              | error cause => simp [Script.Stays, Outcome.Stays]
              | ok most => exact Script.stays_repetition steps _ _ _ _ _ _ whole
  | .lookahead child _, parameters, _, whole => by
      rw [script]
      exact (stays_script child parameters whole).andThen
        (fun _ _ _ => Outcome.stays_check whole _) (Outcome.stays_check whole _)
  | .lookbehind child, parameters, cursor, whole => by
      rw [script]
      cases previous : cursor.previous? with
      | none => trivial
      | some before =>
          obtain ⟨char, spans⟩ := Cursor.previous?_eq_some_iff.mp previous
          exact (stays_script child parameters (spans.whole_eq.symm.trans whole)).andThen
            (fun _ _ _ => Outcome.stays_check whole _) trivial
  | .detectIndentation minimum child, parameters, _, whole => by
      rw [script]
      cases minimum.resolveInt parameters with
      | error cause => simp [Script.Stays, Outcome.Stays]
      | ok least =>
          dsimp only
          split
          · trivial
          · exact stays_script child _ whole
  | .cases arms, parameters, _, whole => by
      rw [script]
      exact stays_scriptCases arms parameters whole

private theorem stays_scriptAll : (children : List Node) → (parameters : Parameters) →
    {cursor : Cursor} → cursor.whole = text →
    (scriptAll production children parameters cursor).Stays text
  | [], _, _, whole => whole
  | node :: rest, parameters, _, whole =>
      (stays_script node parameters whole).andThen
        (fun _ _ inside => (stays_scriptAll rest parameters inside).andThen
          (fun _ _ inside => inside) trivial) trivial

private theorem stays_scriptFirst : (children : List Node) → (parameters : Parameters) →
    {cursor : Cursor} → cursor.whole = text →
    (scriptFirst production children parameters cursor).Stays text
  | [], _, _, _ => trivial
  | node :: rest, parameters, _, whole =>
      (stays_script node parameters whole).andThen (fun _ _ inside => inside)
        (stays_scriptFirst rest parameters whole)

private theorem stays_scriptCases : (arms : List (Parameters × Node)) → (parameters : Parameters) →
    {cursor : Cursor} → cursor.whole = text →
    (scriptCases production arms parameters cursor).Stays text
  | [], _, _, _ => by simp [scriptCases, Script.Stays, Outcome.Stays]
  | (pattern, body) :: rest, parameters, _, whole => by
      rw [scriptCases]
      split
      · exact stays_script body parameters whole
      · exact stays_scriptCases rest parameters whole

end

end Node

/-! ### The path through a script -/

/-- An answer to a call that the body of a production makes is derivable. -/
def Ask.Has (grammar : Grammar) (depth : ℕ∞) (production : String) (ask : Ask)
    (outcome : Outcome) : Prop :=
  Derives grammar depth production (.node (.reference ask.name ask.arguments)) ask.parameters
    ask.cursor outcome

namespace Script

/-- The path that some answers to calls lead through a script: the calls that it makes on the way,
and its outcome. -/
inductive Follows (answers : Ask → Outcome → Prop) : Script → List Ask → Outcome → Prop where
  | done (outcome : Outcome) : Follows answers (.done outcome) [] outcome
  | note {production : String} {offset : Nat} {later : Script} {asked : List Ask}
      {outcome : Outcome} (rest : Follows answers later asked outcome) :
      Follows answers (.note production offset later) asked outcome
  | matched {ask : Ask} {stop : Cursor} {nodes : List Tree}
      {onMatch : List Tree → Cursor → Script} {onMiss : Script} {asked : List Ask}
      {outcome : Outcome} (answer : answers ask (.matched nodes stop))
      (rest : Follows answers (onMatch nodes stop) asked outcome) :
      Follows answers (.call ask onMatch onMiss) (ask :: asked) outcome
  | unmatched {ask : Ask} {onMatch : List Tree → Cursor → Script} {onMiss : Script}
      {asked : List Ask} {outcome : Outcome} (answer : answers ask .unmatched)
      (rest : Follows answers onMiss asked outcome) :
      Follows answers (.call ask onMatch onMiss) (ask :: asked) outcome
  | failed {ask : Ask} {onMatch : List Tree → Cursor → Script} {onMiss : Script}
      {error : RunError} (answer : answers ask (.failed error)) :
      Follows answers (.call ask onMatch onMiss) [ask] (.failed error)

namespace Follows

variable {answers : Ask → Outcome → Prop} {script : Script} {earlier later : List Ask}
  {onMatch : List Tree → Cursor → Script} {onMiss : Script} {outcome : Outcome}

private theorem andThen_matched {nodes : List Tree} {stop : Cursor}
    (follows : script.Follows answers earlier (.matched nodes stop))
    (rest : (onMatch nodes stop).Follows answers later outcome) :
    (script.andThen onMatch onMiss).Follows answers (earlier ++ later) outcome := by
  generalize same : Outcome.matched nodes stop = result at follows
  induction follows with
  | done => cases same; exact rest
  | note _ induction => exact .note (induction same)
  | matched answer _ induction => exact .matched answer (induction same)
  | unmatched answer _ induction => exact .unmatched answer (induction same)
  | failed => cases same

private theorem andThen_unmatched (follows : script.Follows answers earlier .unmatched)
    (rest : onMiss.Follows answers later outcome) :
    (script.andThen onMatch onMiss).Follows answers (earlier ++ later) outcome := by
  generalize same : Outcome.unmatched = result at follows
  induction follows with
  | done => cases same; exact rest
  | note _ induction => exact .note (induction same)
  | matched answer _ induction => exact .matched answer (induction same)
  | unmatched answer _ induction => exact .unmatched answer (induction same)
  | failed => cases same

end Follows

variable {setting : Setting} {room : Nat} {invoke : Invoke} {script : Script} {text : List Char}
  {memory : Memory}

/-- A run with sound answers keeps what is remembered sound and follows answers that are derivable,
unless the limit is exceeded. -/
theorem run_sound (production : String) (calls : setting.CallsAnswer room invoke)
    (stays : script.Stays text) (sound : memory.Sound setting.grammar text) :
    (script.run (invoke.reply production) memory).2.Sound setting.grammar text ∧
      ((script.run (invoke.reply production) memory).1 =
          .failed (.recursionLimitExceeded setting.limit) ∨
        ∃ asked, script.Follows (Ask.Has setting.grammar (setting.depth room) production)
          asked (script.run (invoke.reply production) memory).1) := by
  induction script generalizing memory with
  | done outcome => exact ⟨sound, .inr ⟨[], .done outcome⟩⟩
  | note name offset later induction =>
      obtain ⟨sound, later⟩ := induction stays (sound.log (.zeroWidth name offset))
      exact ⟨sound, later.imp_right (.imp fun _ => .note)⟩
  | call ask onMatch onMiss hit miss =>
      obtain ⟨rfl, stays, staysOnMiss⟩ := stays
      have answers := calls production ask.name ask.arguments ask.parameters ask.cursor memory sound
      change setting.Answers room production _ _ _ (invoke.reply production ask memory) at answers
      rw [run]
      cases reply : invoke.reply production ask memory with
      | mk result after =>
      rw [reply] at answers
      cases result with
      | failed error =>
          refine ⟨answers.memory, answers.outcome.imp_right fun derives => ?_⟩
          exact ⟨[ask], .failed derives⟩
      | unmatched =>
          obtain ⟨sound, later⟩ := miss staysOnMiss answers.memory
          refine ⟨sound, later.imp_right ?_⟩
          rintro ⟨asked, follows⟩
          exact ⟨ask :: asked, .unmatched answers.derives_unmatched follows⟩
      | matched nodes stop =>
          obtain ⟨sound, later⟩ :=
            hit nodes stop (stays nodes stop answers.derives.whole_eq) answers.memory
          refine ⟨sound, later.imp_right ?_⟩
          rintro ⟨asked, follows⟩
          exact ⟨ask :: asked, .matched answers.derives follows⟩

end Script

/-! ### Calls -/

private theorem bindArguments_error {caller name : String} {parameters : Parameters}
    {error : RunError} :
    {formals : List Formal} → {arguments : List Binding} → {bound : Parameters} →
      bindArguments caller name parameters formals arguments bound = .error error →
      ∃ production cause, error = .parameter production cause
  | [], _, _, fails => by simp [bindArguments] at fails
  | _ :: _, [], _, fails => by simp [bindArguments] at fails
  | formal :: formals, argument :: arguments, bound, fails => by
      rw [bindArguments] at fails
      cases resolved : argument.resolve parameters with
      | error cause =>
          rw [resolved] at fails
          exact ⟨caller, cause, (Except.error.inj fails).symm⟩
      | ok value =>
          simp only [resolved] at fails
          cases binds : bound.bind formal value with
          | error cause =>
              rw [binds] at fails
              exact ⟨name, cause, (Except.error.inj fails).symm⟩
          | ok bound =>
              rw [binds] at fails
              exact bindArguments_error fails

/-- The production that a call enters and the call with its parameters, or why there is none. -/
def Grammar.resolve (grammar : Grammar) (caller name : String) (arguments : List Binding)
    (parameters : Parameters) (offset : Nat) : Except RunError (Production × Call) :=
  match grammar.get? name with
  | none => .error (.undefinedProduction name caller)
  | some called =>
      if arguments.length = called.formals.length then
        match bindArguments caller name parameters called.formals arguments .empty with
        | .error error => .error error
        | .ok bound => .ok (called, ⟨name, bound, offset⟩)
      else .error (.arityMismatch name called.formals.length arguments.length)

section Resolve

variable {grammar : Grammar} {caller name : String} {arguments : List Binding}
  {parameters : Parameters} {offset : Nat}

theorem Grammar.resolve_eq_ok_iff {called : Production} {call : Call} :
    grammar.resolve caller name arguments parameters offset = .ok (called, call) ↔
      grammar.get? name = some called ∧ arguments.length = called.formals.length ∧
        ∃ bound, bindArguments caller name parameters called.formals arguments .empty = .ok bound ∧
          call = ⟨name, bound, offset⟩ := by
  unfold Grammar.resolve
  cases found : grammar.get? name with
  | none => simp
  | some production =>
      by_cases counts : arguments.length = production.formals.length
      · cases binds : bindArguments caller name parameters production.formals arguments .empty with
        | error error => simp [counts, binds]; grind
        | ok bound => simp [counts, binds]; grind
      · simp [counts]; grind

theorem Grammar.resolve_ne_exceeded (limit : Nat) :
    grammar.resolve caller name arguments parameters offset ≠
      .error (.recursionLimitExceeded limit) := by
  unfold Grammar.resolve
  split
  · simp
  · split
    · split
      · rename_i error fails
        obtain ⟨production, cause, rfl⟩ := bindArguments_error fails
        simp
      · simp
    · simp

/-- A call that cannot be entered fails, and one that can ends as its body does. -/
theorem Setting.invoke_eq (setting : Setting) (room : Nat) (cursor : Cursor) (memory : Memory) :
    setting.invoke room caller name arguments parameters cursor memory =
      match setting.grammar.resolve caller name arguments parameters cursor.offset with
      | .error error => (.failed error, memory)
      | .ok (called, call) =>
          if setting.cached && memory.failures.contains call then
            (.unmatched, memory.log (.hit call))
          else
            match room with
            | 0 => (.failed (.recursionLimitExceeded setting.limit), memory)
            | room + 1 =>
                setting.conclude call
                  ((called.body.script call.name call.parameters cursor).run
                    (Invoke.reply (setting.invoke room) call.name)
                    (memory.log (.enter call))) := by
  cases found : setting.grammar.get? name with
  | none => rw [invoke_undefined found]; simp only [Grammar.resolve, found]
  | some called =>
      by_cases counts : arguments.length = called.formals.length
      · cases binds : bindArguments caller name parameters called.formals arguments .empty with
        | error error =>
            rw [invoke_unbound found counts binds]
            simp only [Grammar.resolve, found, counts, binds, if_true]
        | ok bound =>
            simp only [Grammar.resolve, found, counts, binds, if_true]
            split
            · rename_i known
              exact invoke_known found counts binds known
            · rename_i unknown
              rw [Bool.not_eq_true] at unknown
              cases room with
              | zero => exact invoke_zero found counts binds unknown
              | succ room => rw [invoke_succ found counts binds unknown, Node.evaluate_eq_run]
      · rw [invoke_arity found counts]
        simp only [Grammar.resolve, found, counts, if_false]

theorem derives_reference_iff {depth : ℕ∞} {cursor : Cursor} {outcome : Outcome} :
    Derives grammar depth caller (.node (.reference name arguments)) parameters cursor outcome ↔
      match grammar.resolve caller name arguments parameters cursor.offset with
      | .error error => outcome = .failed error
      | .ok (called, call) =>
          ∃ inner body, inner + 1 ≤ depth ∧
            Derives grammar inner call.name (.node called.body) call.parameters cursor body ∧
            outcome = body.enclose call := by
  constructor
  · intro derives
    cases derives with
    | undefined missing => simp only [Grammar.resolve, missing]
    | arity found differ => simp only [Grammar.resolve, found, differ, if_false]
    | unbound found counts fails =>
        simp only [Grammar.resolve, found, counts, fails, if_true]
    | reference nests found counts binds body =>
        simp only [Grammar.resolve, found, counts, binds, if_true]
        exact ⟨_, _, nests, body, rfl⟩
  · cases found : grammar.get? name with
    | none =>
        simp only [Grammar.resolve, found]
        rintro rfl
        exact .undefined found
    | some called =>
        by_cases counts : arguments.length = called.formals.length
        · cases binds : bindArguments caller name parameters called.formals arguments .empty with
          | error error =>
              simp only [Grammar.resolve, found, counts, binds, if_true]
              rintro rfl
              exact .unbound found counts binds
          | ok bound =>
              simp only [Grammar.resolve, found, counts, binds, if_true]
              rintro ⟨inner, body, nests, derives, rfl⟩
              exact .reference nests found counts binds derives
        · simp only [Grammar.resolve, found, counts, if_false]
          rintro rfl
          exact .arity found counts

end Resolve

/-! ### Derivations follow scripts -/

namespace Derives

variable {grammar : Grammar} {depth : ℕ∞} {production : String} {task : Task} {node : Node}
  {parameters : Parameters} {cursor : Cursor} {outcome : Outcome}

/-- No rule exceeds a limit. -/
theorem ne_exceeded (limit : Nat)
    (derives : Derives grammar depth production task parameters cursor outcome) :
    outcome ≠ .failed (.recursionLimitExceeded limit) := by
  induction derives with
  | unbound _ _ fails =>
      obtain ⟨production, cause, rfl⟩ := bindArguments_error fails
      simp
  | _ => simp_all

/-- A derivation leads through the script of an expression, with answers that nest no deeper. -/
theorem follows {depth : ℕ}
    (derives : Derives grammar depth production (.node node) parameters cursor outcome) :
    ∃ asked, (node.script production parameters cursor).Follows
      (Ask.Has grammar depth production) asked outcome := by
  -- The derivation is what a run without a memory finds, and that run follows the script.
  let setting : Setting := { grammar, cached := false }
  have reproduced := derives.reproduces setting depth le_rfl .fresh Memory.sound_fresh
  have stays := node.stays_script production parameters (Eq.refl cursor.whole)
  have run := (Script.run_sound production (setting.invoke_answers depth) stays
    Memory.sound_fresh).2
  rw [← Node.evaluate_eq_run, reproduced] at run
  exact run.resolve_left (derives.ne_exceeded _)

end Derives

end ParametricGrammar
