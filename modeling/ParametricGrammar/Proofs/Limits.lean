import ParametricGrammar.Proofs.CallStack
/-!
# The limit on nested calls

A limit only ends runs. No expression goes on behind an exceeded limit, so a run that stays within
one limit goes the same way under every higher one, event by event. Trees nest as calls do, and are
no higher than the limit.

A memory can only save a run from the limit: calls that are known to fail need no room.
-/

namespace ParametricGrammar

/-! ### Runs within a limit -/

/-- Evaluations of calls that agree within a limit run a script alike within it. -/
theorem Script.run_eq_of_within {calls other : Ask → Memory → Reply} {limit : Nat}
    (agree : ∀ ask memory, (calls ask memory).1 ≠ .failed (.recursionLimitExceeded limit) →
      other ask memory = calls ask memory) (script : Script) (memory : Memory)
    (within : (script.run calls memory).1 ≠ .failed (.recursionLimitExceeded limit)) :
    script.run other memory = script.run calls memory := by
  induction script generalizing memory with
  | done outcome => rfl
  | note production offset later induction => exact induction _ within
  | call ask onMatch onMiss hit miss =>
      have same := agree ask memory
      rw [run] at within ⊢
      rw [run]
      cases reply : calls ask memory with
      | mk result after =>
      rw [reply] at within same
      cases result with
      | failed error => rw [same within]
      | unmatched =>
          rw [same (by simp)]
          exact miss after within
      | matched nodes stop =>
          rw [same (by simp)]
          exact hit nodes stop after within

namespace Setting

variable {grammar : Grammar} {cached : Bool} {limit : Nat}

/-- More room, and a higher limit, change no reply of a call that stays within the limit. -/
theorem invoke_eq_of_within (higher : Nat) {room more : Nat} (le : room ≤ more) (caller : String)
    (ask : Ask) (memory : Memory)
    (within : ((invoke ⟨grammar, cached, limit⟩ room).reply caller ask memory).1 ≠
      .failed (.recursionLimitExceeded limit)) :
    (invoke ⟨grammar, cached, higher⟩ more).reply caller ask memory =
      (invoke ⟨grammar, cached, limit⟩ room).reply caller ask memory := by
  induction room generalizing more caller ask memory with
  | zero =>
      rw [Invoke.reply, invoke_eq] at within ⊢
      rw [Invoke.reply, invoke_eq]
      cases resolved : grammar.resolve caller ask.name ask.arguments ask.parameters
        ask.cursor.offset with
      | error error => rfl
      | ok pair =>
          obtain ⟨called, call⟩ := pair
          simp only [resolved] at within ⊢
          by_cases known : (cached && memory.failures.contains call) = true
          · rw [if_pos known, if_pos known]
          · rw [if_neg known] at within
            exact absurd rfl within
  | succ room induction =>
      obtain ⟨more, rfl⟩ := Nat.exists_eq_succ_of_ne_zero (show more ≠ 0 by omega)
      rw [Invoke.reply, invoke_eq] at within ⊢
      rw [Invoke.reply, invoke_eq]
      cases resolved : grammar.resolve caller ask.name ask.arguments ask.parameters
        ask.cursor.offset with
      | error error => rfl
      | ok pair =>
          obtain ⟨called, call⟩ := pair
          simp only [resolved] at within ⊢
          by_cases known : (cached && memory.failures.contains call) = true
          · rw [if_pos known, if_pos known]
          · rw [if_neg known] at within ⊢
            rw [if_neg known]
            have body := Script.run_eq_of_within
              (induction (Nat.le_of_succ_le_succ le) call.name)
              (called.body.script call.name call.parameters ask.cursor) (memory.log (.enter call))
              fun exceeded => within (by rw [conclude_fst, exceeded]; rfl)
            rw [body]
            rfl

end Setting

/-! ### Heights of trees -/

mutual

/-- The number of nodes on the longest way down a tree. -/
def Tree.height : Tree → Nat
  | ⟨_, _, content, _, _⟩ => heightOfAll content + 1

/-- The height of the highest of some trees. -/
def Tree.heightOfAll : List Tree → Nat
  | [] => 0
  | tree :: rest => max tree.height (heightOfAll rest)

end

private theorem Tree.heightOfAll_le_iff {nodes : List Tree} {bound : Nat} :
    heightOfAll nodes ≤ bound ↔ ∀ tree ∈ nodes, tree.height ≤ bound := by
  induction nodes with
  | nil => simp [heightOfAll]
  | cons tree rest induction => simp [heightOfAll, induction]

/-- The trees of a match have a property. -/
def Outcome.Gathers (holds : Tree → Prop) : Outcome → Prop
  | .matched nodes _ => ∀ tree ∈ nodes, holds tree
  | .unmatched | .failed _ => True

namespace Outcome

variable {holds : Tree → Prop}

private theorem gathers_check (met : Bool) (cursor : Cursor) :
    (check met cursor).Gathers holds := by
  cases met with
  | true => exact List.forall_mem_nil holds
  | false => trivial

private theorem gathers_closeRepetition {nodes : List Tree} (all : ∀ tree ∈ nodes, holds tree)
    (minimum count : Nat) (cursor : Cursor) :
    (closeRepetition minimum count nodes cursor).Gathers holds := by
  unfold closeRepetition
  split
  · exact fun tree member => all tree (List.mem_reverse.mp member)
  · trivial

end Outcome

namespace Script

/-- A script ends with trees that its calls have matched: those that have a property if all of
these have it. -/
def Gathers (holds : Tree → Prop) : Script → Prop
  | .done outcome => outcome.Gathers holds
  | .note _ _ later => later.Gathers holds
  | .call _ onMatch onMiss =>
      (∀ nodes stop, (∀ tree ∈ nodes, holds tree) → (onMatch nodes stop).Gathers holds) ∧
        onMiss.Gathers holds

variable {holds : Tree → Prop} {script : Script}

private theorem Gathers.andThen {onMatch : List Tree → Cursor → Script} {onMiss : Script}
    (gathers : script.Gathers holds)
    (matched : ∀ nodes stop, (∀ tree ∈ nodes, holds tree) → (onMatch nodes stop).Gathers holds)
    (unmatched : onMiss.Gathers holds) : (script.andThen onMatch onMiss).Gathers holds := by
  induction script with
  | done outcome =>
      cases outcome with
      | matched nodes stop => exact matched nodes stop gathers
      | unmatched => exact unmatched
      | failed error => trivial
  | note production offset later induction => exact induction gathers
  | call ask _ _ hit miss =>
      obtain ⟨hits, misses⟩ := gathers
      exact ⟨fun nodes stop all => hit nodes stop (hits nodes stop all), miss misses⟩

private theorem gathers_repetition {step : Cursor → Script}
    (steps : ∀ cursor, (step cursor).Gathers holds) (production : String) (minimum : Nat)
    (unbounded : Bool) (budget count : Nat) {nodes : List Tree} (all : ∀ tree ∈ nodes, holds tree)
    (cursor : Cursor) :
    (repetition production step minimum unbounded budget count nodes cursor).Gathers holds := by
  induction budget generalizing count nodes cursor with
  | zero => exact Outcome.gathers_closeRepetition all ..
  | succ budget induction =>
      refine (steps cursor).andThen (fun more stop gained => ?_)
        (Outcome.gathers_closeRepetition all ..)
      have both : ∀ tree ∈ more.reverseAux nodes, holds tree := by
        intro tree member
        rw [List.reverseAux_eq, List.mem_append, List.mem_reverse] at member
        exact member.elim (gained tree) (all tree)
      split
      · exact Outcome.gathers_closeRepetition both ..
      · exact induction _ both _

/-- A run ends with trees that have a property if its calls end with such trees. -/
theorem Gathers.run {calls : Ask → Memory → Reply}
    (each : ∀ ask memory, (calls ask memory).1.Gathers holds) (gathers : script.Gathers holds)
    (memory : Memory) : (script.run calls memory).1.Gathers holds := by
  induction script generalizing memory with
  | done outcome => exact gathers
  | note production offset later induction => exact induction gathers _
  | call ask onMatch onMiss hit miss =>
      have first := each ask memory
      rw [Script.run]
      cases reply : calls ask memory with
      | mk result after =>
      rw [reply] at first
      cases result with
      | failed error => trivial
      | unmatched => exact miss gathers.2 after
      | matched nodes stop => exact hit nodes stop (gathers.1 nodes stop first) after

end Script

namespace Node

variable {holds : Tree → Prop} (production : String)

mutual

private theorem gathers_script : (node : Node) → (parameters : Parameters) → (cursor : Cursor) →
    (script production node parameters cursor).Gathers holds
  | .empty, _, _ => List.forall_mem_nil holds
  | .startOfLine, _, _ => Outcome.gathers_check ..
  | .endOfInput, _, _ => Outcome.gathers_check ..
  | .literal spelling, _, cursor => by
      rw [script]
      cases cursor.skip? spelling.toList with
      | none => trivial
      | some stop => exact List.forall_mem_nil holds
  | .chars set, _, cursor => by
      rw [script]
      cases cursor.next? with
      | none => trivial
      | some pair => exact Outcome.gathers_check ..
  | .reference _ _, _, _ => ⟨fun _ _ all => all, trivial⟩
  | .sequence children, parameters, cursor => by
      rw [script]
      exact gathers_scriptAll children parameters cursor
  | .first children, parameters, cursor => by
      rw [script]
      exact gathers_scriptFirst children parameters cursor
  | .repeated child minimum maximum, parameters, cursor => by
      have steps := gathers_script child parameters
      rw [script]
      cases minimum.resolve parameters with
      | error cause => trivial
      | ok least =>
          cases maximum with
          | none => exact Script.gathers_repetition steps _ _ _ _ _ (List.forall_mem_nil holds) _
          | some bound =>
              dsimp only
              cases bound.resolve parameters with
              | error cause => trivial
              | ok most =>
                  exact Script.gathers_repetition steps _ _ _ _ _ (List.forall_mem_nil holds) _
  | .lookahead child _, parameters, cursor => by
      rw [script]
      exact (gathers_script child parameters cursor).andThen
        (fun _ _ _ => Outcome.gathers_check ..) (Outcome.gathers_check ..)
  | .lookbehind child, parameters, cursor => by
      rw [script]
      cases cursor.previous? with
      | none => trivial
      | some before =>
          exact (gathers_script child parameters before).andThen
            (fun _ _ _ => Outcome.gathers_check ..) trivial
  | .detectIndentation minimum child, parameters, cursor => by
      rw [script]
      cases minimum.resolveInt parameters with
      | error cause => trivial
      | ok least =>
          dsimp only
          split
          · trivial
          · exact gathers_script child _ cursor
  | .cases arms, parameters, cursor => by
      rw [script]
      exact gathers_scriptCases arms parameters cursor

private theorem gathers_scriptAll : (children : List Node) → (parameters : Parameters) →
    (cursor : Cursor) → (scriptAll production children parameters cursor).Gathers holds
  | [], _, _ => List.forall_mem_nil holds
  | node :: rest, parameters, cursor =>
      (gathers_script node parameters cursor).andThen
        (fun _ stop first => (gathers_scriptAll rest parameters stop).andThen
          (fun _ _ later => List.forall_mem_append.mpr ⟨first, later⟩) trivial) trivial

private theorem gathers_scriptFirst : (children : List Node) → (parameters : Parameters) →
    (cursor : Cursor) → (scriptFirst production children parameters cursor).Gathers holds
  | [], _, _ => trivial
  | node :: rest, parameters, cursor =>
      (gathers_script node parameters cursor).andThen (fun _ _ all => all)
        (gathers_scriptFirst rest parameters cursor)

private theorem gathers_scriptCases : (arms : List (Parameters × Node)) →
    (parameters : Parameters) → (cursor : Cursor) →
      (scriptCases production arms parameters cursor).Gathers holds
  | [], _, _ => trivial
  | (pattern, body) :: rest, parameters, cursor => by
      rw [scriptCases]
      split
      · exact gathers_script body parameters cursor
      · exact gathers_scriptCases rest parameters cursor

end

end Node

namespace Setting

/-- A call with room for some nested calls ends with a tree that is no higher. -/
theorem height_invoke (setting : Setting) (room : Nat) (caller : String) (ask : Ask)
    (memory : Memory) :
    ((setting.invoke room).reply caller ask memory).1.Gathers (·.height ≤ room) := by
  induction room generalizing caller ask memory with
  | zero =>
      rw [Invoke.reply, invoke_eq]
      split
      · trivial
      · split <;> trivial
  | succ room induction =>
      rw [Invoke.reply, invoke_eq]
      split
      · trivial
      · rename_i called call _
        split
        · trivial
        · have body := Script.Gathers.run (induction call.name)
            (called.body.gathers_script call.name call.parameters ask.cursor)
            (memory.log (.enter call))
          rw [conclude_fst]
          match same : ((called.body.script call.name call.parameters ask.cursor).run
              ((setting.invoke room).reply call.name) (memory.log (.enter call))).1 with
          | .failed error => trivial
          | .unmatched => trivial
          | .matched nodes stop =>
              rw [same] at body
              refine List.forall_mem_singleton.mpr (Nat.succ_le_succ ?_)
              exact Tree.heightOfAll_le_iff.mpr body

end Setting

namespace Session

/-- A higher limit changes nothing. Unless a query to a fresh session exceeds the limit, it has the
same outcome and the same events under every higher one, and trees that are no higher than the
limit. -/
theorem ask_limit_mono (grammar : Grammar) (cached : Bool) (limit : Nat) (text : List Char)
    (query : Query) :
    let asked := (fresh ⟨grammar, cached, limit⟩ text).ask query
    asked.1 = .failed (.recursionLimitExceeded limit) ∨
      (∀ higher ≥ limit,
        let again := (fresh ⟨grammar, cached, higher⟩ text).ask query
        again.1 = asked.1 ∧ again.2.takeEvents.1 = asked.2.takeEvents.1) ∧
      ∀ nodes stop, asked.1 = .matched nodes stop → ∀ tree ∈ nodes, tree.height ≤ limit := by
  simp only [ask, parse, Setting.parse, fresh]
  cases Cursor.at? text query.offset with
  | none => exact .inr ⟨fun _ _ => ⟨rfl, rfl⟩, by simp⟩
  | some cursor =>
      dsimp only
      rw [Node.evaluate_eq_run]
      refine or_iff_not_imp_left.mpr fun within => ⟨fun higher ge => ?_, fun nodes stop same => ?_⟩
      · have again := Script.run_eq_of_within
          (Setting.invoke_eq_of_within higher ge outside) _ .fresh within
        rw [Node.evaluate_eq_run, again]
        exact ⟨rfl, rfl⟩
      · have gathered := (query.node.gathers_script outside query.parameters cursor).run
          (Setting.height_invoke ⟨grammar, cached, limit⟩ limit outside) .fresh
        rw [same] at gathered
        exact gathered

end Session

/-! ### Room that a memory saves -/

namespace Setting

variable {root : String} {text : List Char}

/-- With a memory the limit is exceeded only where it is without one. -/
theorem parseAll_exceeds_uncached {grammar : Grammar} {limit : Nat}
    (exceeded : (parseAll ⟨grammar, true, limit⟩ root text).1 =
      .error (.recursionLimitExceeded limit)) :
    (parseAll ⟨grammar, false, limit⟩ root text).1 = .error (.recursionLimitExceeded limit) := by
  by_contra within
  have same := parseAll_eq_of_uncached true rfl within
  exact within (same ▸ exceeded)

/-- What is found within a limit is found under all limits that are high enough, be there a memory
or not. -/
theorem exists_limit_parseAll_eq {setting : Setting}
    (within : (setting.parseAll root text).1 ≠ .error (.recursionLimitExceeded setting.limit)) :
    ∃ least, ∀ limit ≥ least, ∀ cached : Bool,
      (parseAll ⟨setting.grammar, cached, limit⟩ root text).1 = (setting.parseAll root text).1 := by
  have answers := invoke_answers setting setting.limit outside root [] .empty (.start text) .fresh
    Memory.sound_fresh
  rcases answers.outcome with exceeded | derives
  · refine absurd ?_ within
    simp only [parseAll, exceeded]
  · obtain ⟨least, finite⟩ := derives.exists_depth
    refine ⟨least, fun limit ge cached => ?_⟩
    have same : (invoke ⟨setting.grammar, cached, limit⟩ limit outside root [] .empty (.start text)
        .fresh).1 = (setting.invoke setting.limit outside root [] .empty (.start text) .fresh).1 :=
      finite.reproduces ⟨setting.grammar, cached, limit⟩ limit (by exact_mod_cast ge) .fresh
        Memory.sound_fresh
    simp only [parseAll, same]

/-- All that a memory can change about a run is that it stays within the limit. What it finds then
is found under all limits that are high enough, with a memory or without one. -/
theorem memory_only_saves_room (grammar : Grammar) (limit : Nat) (root : String)
    (text : List Char) :
    let remembered := (parseAll ⟨grammar, true, limit⟩ root text).1
    let forgotten := (parseAll ⟨grammar, false, limit⟩ root text).1
    remembered = forgotten ∨
      forgotten = .error (.recursionLimitExceeded limit) ∧
      remembered ≠ .error (.recursionLimitExceeded limit) ∧
      ∃ least, ∀ higher ≥ least, ∀ cached : Bool,
        (parseAll ⟨grammar, cached, higher⟩ root text).1 = remembered := by
  intro remembered forgotten
  by_cases within : remembered = .error (.recursionLimitExceeded limit)
  · exact .inl (within.trans (parseAll_exceeds_uncached within).symm)
  · by_cases exceeded : forgotten = .error (.recursionLimitExceeded limit)
    · have settles : ∃ least, ∀ higher ≥ least, ∀ cached : Bool,
          (parseAll ⟨grammar, cached, higher⟩ root text).1 =
            (parseAll ⟨grammar, true, limit⟩ root text).1 := exists_limit_parseAll_eq within
      exact .inr ⟨exceeded, within, settles⟩
    · exact .inl (parseAll_eq_of_uncached true rfl exceeded)

end Setting

/-- A word is tried, and then again one call deeper. -/
def Grammar.retrying : Grammar :=
  .ofList
    [ ("top", ⟨none, [], .first [.call "word", .call "deeper", .literal "y"]⟩),
      ("word", ⟨none, [], .literal "x"⟩),
      ("deeper", ⟨none, [], .sequence [.call "word", .literal "z"]⟩) ]

/-- A memory can keep a run within the limit that exceeds it without one: here the call that is one
too deep is known to fail. -/
theorem Setting.memory_saves_room :
    (parseAll ⟨Grammar.retrying, true, 2⟩ "top" ['y']).1 = .ok ⟨"top", .empty, [], 0, 1⟩ ∧
      (parseAll ⟨Grammar.retrying, false, 2⟩ "top" ['y']).1 =
        .error (.recursionLimitExceeded 2) := by
  refine ⟨?_, rfl⟩
  have top : Grammar.retrying.get? "top" =
      some ⟨none, [], .first [.call "word", .call "deeper", .literal "y"]⟩ := rfl
  have word : Grammar.retrying.get? "word" = some ⟨none, [], .literal "x"⟩ := rfl
  have deeper : Grammar.retrying.get? "deeper" =
      some ⟨none, [], .sequence [.call "word", .literal "z"]⟩ := rfl
  have bytes : 'y'.utf8Size = 1 := rfl
  -- Hashes of strings do not compute, so the lookups in the memory are rewritten.
  simp [parseAll, invoke, conclude, top, word, deeper, bindArguments, Node.call, Node.evaluate,
    Node.evaluateAll, Node.evaluateFirst, Memory.fresh, Memory.log, Memory.remember, Cursor.start,
    Cursor.skip?, Cursor.next?, bytes]

end ParametricGrammar
