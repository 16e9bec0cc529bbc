import ParametricGrammar.Proofs.References
import ParametricGrammar.Proofs.Scripts
import ParametricGrammar.Proofs.Subtrees
/-!
# Texts behind other texts

Most expressions never look back: what they match depends on the text ahead alone. Such an
expression is evaluated behind another text as it is at the start of its own one, call by call, and
every place that it reports has moved by the length of what lies before.
-/

namespace ParametricGrammar

/-! ### Places behind a text -/

namespace Cursor

/-- The place that a place becomes when a text is put before its own one. -/
def behind (front : List Char) (cursor : Cursor) : Cursor where
  before := cursor.before ++ front.reverse
  rest := cursor.rest
  offset := byteLength front + cursor.offset
  offset_eq := by simp [cursor.offset_eq, Nat.add_comm]

variable (front : List Char) (cursor : Cursor)

@[simp] theorem offset_behind :
    (cursor.behind front).offset = byteLength front + cursor.offset := rfl

@[simp] theorem spacesAhead_behind : (cursor.behind front).spacesAhead = cursor.spacesAhead := rfl

private theorem next?_behind :
    (cursor.behind front).next? =
      cursor.next?.map fun (char, stop) => (char, stop.behind front) := by
  obtain ⟨before, rest, offset, rfl⟩ := cursor
  cases rest with
  | nil => rfl
  | cons char rest => exact congrArg some (Prod.ext rfl (ext rfl rfl))

private theorem skip?_behind (chars : List Char) :
    (cursor.behind front).skip? chars = (cursor.skip? chars).map (behind front) := by
  induction chars generalizing cursor with
  | nil => rfl
  | cons wanted chars induction =>
      rw [skip?, skip?, next?_behind]
      cases cursor.next? with
      | none => rfl
      | some pair =>
          dsimp only [Option.map_some]
          split
          · exact induction pair.2
          · rfl

private theorem at?_zero (text : List Char) : at? text 0 = some (start text) :=
  at?_eq_some_iff.mpr ⟨rfl, rfl⟩

private theorem at?_append (rest : List Char) :
    at? (front ++ rest) (byteLength front) = some ((start rest).behind front) :=
  at?_eq_some_iff.mpr ⟨by simp [whole, behind, start], rfl⟩

end Cursor

namespace Tree

mutual

/-- A tree with every range moved by a number of bytes. -/
def moved (distance : Nat) : Tree → Tree
  | ⟨name, parameters, content, start, stop⟩ =>
      ⟨name, parameters, movedAll distance content, distance + start, distance + stop⟩

/-- Some trees with every range moved. -/
def movedAll (distance : Nat) : List Tree → List Tree
  | [] => []
  | tree :: rest => moved distance tree :: movedAll distance rest

end

variable (distance : Nat)

private theorem movedAll_eq_map (nodes : List Tree) :
    movedAll distance nodes = nodes.map (moved distance) := by
  induction nodes with
  | nil => rfl
  | cons tree rest induction => rw [movedAll, induction, List.map_cons]

@[simp] theorem movedAll_append (left right : List Tree) :
    movedAll distance (left ++ right) = movedAll distance left ++ movedAll distance right := by
  simp only [movedAll_eq_map, List.map_append]

@[simp] theorem movedAll_reverse (nodes : List Tree) :
    movedAll distance nodes.reverse = (movedAll distance nodes).reverse := by
  simp only [movedAll_eq_map, List.map_reverse]

private theorem movedAll_reverseAux (left right : List Tree) :
    movedAll distance (left.reverseAux right) =
      (movedAll distance left).reverseAux (movedAll distance right) := by
  simp only [List.reverseAux_eq, movedAll_append, movedAll_reverse]

end Tree

/-- A call with its place moved by a number of bytes. -/
def Call.moved (distance : Nat) (call : Call) : Call :=
  { call with offset := distance + call.offset }

private theorem Call.moved_inj {distance : Nat} {call other : Call} :
    call.moved distance = other.moved distance ↔ call = other := by
  obtain ⟨name, parameters, offset⟩ := call
  obtain ⟨name', parameters', offset'⟩ := other
  simp [moved]

/-- An event with its places moved by a number of bytes. -/
def Event.moved (distance : Nat) : Event → Event
  | .enter call => .enter (call.moved distance)
  | .success call stop => .success (call.moved distance) (distance + stop)
  | .failure call => .failure (call.moved distance)
  | .hit call => .hit (call.moved distance)
  | .zeroWidth production offset => .zeroWidth production (distance + offset)

/-- An outcome behind a text: a match has every range and its end moved, and everything else stays
as it is. -/
def Outcome.behind (front : List Char) : Outcome → Outcome
  | .matched nodes stop => .matched (Tree.movedAll (byteLength front) nodes) (stop.behind front)
  | .unmatched => .unmatched
  | .failed error => .failed error

namespace Outcome

variable (front : List Char)

private theorem behind_check (holds : Bool) (cursor : Cursor) :
    (check holds cursor).behind front = check holds (cursor.behind front) := by
  cases holds <;> rfl

private theorem behind_closeRepetition (minimum count : Nat) (nodes : List Tree) (stop : Cursor) :
    (closeRepetition minimum count nodes stop).behind front =
      closeRepetition minimum count (Tree.movedAll (byteLength front) nodes)
        (stop.behind front) := by
  unfold closeRepetition
  split
  · rw [behind, Tree.movedAll_reverse]
  · rfl

end Outcome

/-! ### Memories that are moved -/

/-- Two memories know the same failures and list the same events, at places apart by a number of
bytes. What the second knows of other places does not matter. -/
structure Memory.Moved (distance : Nat) (memory moved : Memory) : Prop where
  failures : ∀ call : Call,
    moved.failures.contains (call.moved distance) = memory.failures.contains call
  events : moved.events = memory.events.map (Event.moved distance)

namespace Memory.Moved

variable {distance : Nat} {memory moved : Memory}

private theorem fresh : Moved distance .fresh .fresh where
  failures call := by simp [Memory.fresh]
  events := rfl

private theorem log (related : Moved distance memory moved) (event : Event) :
    Moved distance (memory.log event) (moved.log (event.moved distance)) where
  failures := related.failures
  events := by rw [Memory.log, Memory.log, related.events, List.map_cons]

private theorem remember (related : Moved distance memory moved) (call : Call) :
    Moved distance (memory.remember call) (moved.remember (call.moved distance)) where
  failures other := by
    simp only [Memory.remember, Std.HashSet.contains_insert, related.failures, beq_eq_decide,
      Call.moved_inj]
  events := related.events

end Memory.Moved

/-- Two replies, the second from behind a text. -/
structure Reply.Moved (front : List Char) (reply moved : Reply) : Prop where
  outcome : moved.1 = reply.1.behind front
  memory : reply.2.Moved (byteLength front) moved.2

private theorem Reply.Moved.exists_memory {front : List Char} {reply moved : Reply}
    (related : Reply.Moved front reply moved) : ∃ memory,
      moved = (reply.1.behind front, memory) ∧ reply.2.Moved (byteLength front) memory :=
  ⟨moved.2, Prod.ext related.outcome rfl, related.memory⟩

/-! ### Scripts that are moved -/

/-- A call as it is made behind a text. -/
def Ask.behind (front : List Char) (ask : Ask) : Ask :=
  { ask with cursor := ask.cursor.behind front }

namespace Script

/-- Two scripts make the same calls, the second behind a text, as long as these are answered
alike. -/
inductive Moved (front : List Char) : Script → Script → Prop where
  | done (outcome : Outcome) : Moved front (.done outcome) (.done (outcome.behind front))
  | note (production : String) (offset : Nat) {later later' : Script}
      (rest : Moved front later later') :
      Moved front (.note production offset later)
        (.note production (byteLength front + offset) later')
  | call (ask : Ask) {onMatch onMatch' : List Tree → Cursor → Script} {onMiss onMiss' : Script}
      (hit : ∀ nodes stop, Moved front (onMatch nodes stop)
        (onMatch' (Tree.movedAll (byteLength front) nodes) (stop.behind front)))
      (miss : Moved front onMiss onMiss') :
      Moved front (.call ask onMatch onMiss) (.call (ask.behind front) onMatch' onMiss')

variable {front : List Char} {script script' : Script}

private theorem moved_check (holds : Bool) (cursor : Cursor) :
    Moved front (.done (.check holds cursor)) (.done (.check holds (cursor.behind front))) := by
  rw [← Outcome.behind_check]
  exact .done _

private theorem moved_closeRepetition (minimum count : Nat) (nodes : List Tree) (stop : Cursor) :
    Moved front (.done (closeRepetition minimum count nodes stop))
      (.done (closeRepetition minimum count (Tree.movedAll (byteLength front) nodes)
        (stop.behind front))) := by
  rw [← Outcome.behind_closeRepetition]
  exact .done _

private theorem Moved.andThen {onMatch onMatch' : List Tree → Cursor → Script}
    {onMiss onMiss' : Script} (moved : Moved front script script')
    (hit : ∀ nodes stop, Moved front (onMatch nodes stop)
      (onMatch' (Tree.movedAll (byteLength front) nodes) (stop.behind front)))
    (miss : Moved front onMiss onMiss') :
    Moved front (script.andThen onMatch onMiss) (script'.andThen onMatch' onMiss') := by
  induction moved with
  | done outcome =>
      cases outcome with
      | matched nodes stop => exact hit nodes stop
      | unmatched => exact miss
      | failed error => exact .done (.failed error)
  | note production offset _ induction => exact .note production offset induction
  | call ask _ _ hits misses => exact .call ask hits misses

private theorem moved_repetition {step step' : Cursor → Script}
    (steps : ∀ cursor, Moved front (step cursor) (step' (cursor.behind front)))
    (production : String) (minimum : Nat) (unbounded : Bool) (budget count : Nat)
    (nodes : List Tree) (cursor : Cursor) :
    Moved front (repetition production step minimum unbounded budget count nodes cursor)
      (repetition production step' minimum unbounded budget count
        (Tree.movedAll (byteLength front) nodes) (cursor.behind front)) := by
  induction budget generalizing count nodes cursor with
  | zero => exact moved_closeRepetition ..
  | succ budget induction =>
      refine (steps cursor).andThen (fun more stop => ?_) (moved_closeRepetition ..)
      -- An empty match is one behind the text as well.
      simp only [Cursor.offset_behind, Nat.add_left_cancel_iff, ← Tree.movedAll_reverseAux]
      split
      · exact .note production stop.offset (moved_closeRepetition ..)
      · exact induction _ _ _

/-- Runs of moved scripts reply alike if their calls do. -/
theorem Moved.run {calls calls' : Ask → Memory → Reply}
    (each : ∀ ask memory memory', memory.Moved (byteLength front) memory' →
      Reply.Moved front (calls ask memory) (calls' (ask.behind front) memory'))
    (moved : Moved front script script') {memory memory' : Memory}
    (related : memory.Moved (byteLength front) memory') :
    Reply.Moved front (script.run calls memory) (script'.run calls' memory') := by
  induction moved generalizing memory memory' with
  | done outcome => exact ⟨rfl, related⟩
  | note production offset _ induction =>
      exact induction (related.log (.zeroWidth production offset))
  | call ask _ _ hits misses =>
      obtain ⟨memory', reply, after⟩ := (each ask memory memory' related).exists_memory
      rw [Script.run, Script.run, reply]
      generalize calls ask memory = first at after ⊢
      obtain ⟨outcome, memory⟩ := first
      cases outcome with
      | matched nodes stop => exact hits nodes stop after
      | unmatched => exact misses after
      | failed error => exact ⟨rfl, after⟩

end Script

/-! ### Expressions that never look back -/

namespace Node

mutual

/-- Whether an expression asks neither for the start of a line nor for what comes before. -/
def isForward : Node → Bool
  | .startOfLine | .lookbehind _ => false
  | .empty | .endOfInput | .literal _ | .chars _ | .reference _ _ => true
  | .sequence children | .first children => isForwardAll children
  | .repeated child _ _ | .lookahead child _ | .detectIndentation _ child => isForward child
  | .cases arms => isForwardArms arms

/-- Whether no expression of a list asks for what comes before. -/
def isForwardAll : List Node → Bool
  | [] => true
  | node :: rest => isForward node && isForwardAll rest

/-- Whether the body of no case asks for what comes before. -/
def isForwardArms : List (Parameters × Node) → Bool
  | [] => true
  | (_, body) :: rest => isForward body && isForwardArms rest

end

variable (front : List Char) (production : String)

mutual

/-- Without looking back, an expression has the same script behind every text. -/
theorem moved_script : (node : Node) → node.isForward = true → (parameters : Parameters) →
    (cursor : Cursor) →
    Script.Moved front (script production node parameters cursor)
      (script production node parameters (cursor.behind front))
  | .empty, _, _, cursor => .done (.matched [] cursor)
  | .endOfInput, _, _, cursor => Script.moved_check cursor.rest.isEmpty cursor
  | .literal spelling, _, _, cursor => by
      rw [script, script, Cursor.skip?_behind]
      cases cursor.skip? spelling.toList with
      | none => exact .done .unmatched
      | some stop => exact .done (.matched [] stop)
  | .chars set, _, _, cursor => by
      rw [script, script, Cursor.next?_behind]
      cases cursor.next? with
      | none => exact .done .unmatched
      | some pair => exact Script.moved_check ..
  | .reference name arguments, _, parameters, cursor =>
      .call ⟨name, arguments, parameters, cursor⟩
        (fun nodes stop => .done (.matched nodes stop)) (.done .unmatched)
  | .sequence children, forward, parameters, cursor => by
      rw [script, script]
      exact moved_scriptAll children forward parameters cursor
  | .first children, forward, parameters, cursor => by
      rw [script, script]
      exact moved_scriptFirst children forward parameters cursor
  | .repeated child minimum maximum, forward, parameters, cursor => by
      have steps := moved_script child forward parameters
      rw [script, script]
      cases minimum.resolve parameters with
      | error cause => exact .done (.failed _)
      | ok least =>
          cases maximum with
          | none => exact Script.moved_repetition steps ..
          | some bound =>
              dsimp only
              cases bound.resolve parameters with
              | error cause => exact .done (.failed _)
              | ok most => exact Script.moved_repetition steps ..
  | .lookahead child positive, forward, parameters, cursor => by
      rw [script, script]
      exact (moved_script child forward parameters cursor).andThen
        (fun _ _ => Script.moved_check ..) (Script.moved_check ..)
  | .detectIndentation minimum child, forward, parameters, cursor => by
      rw [script, script]
      cases minimum.resolveInt parameters with
      | error cause => exact .done (.failed _)
      | ok least =>
          dsimp only
          rw [Cursor.spacesAhead_behind]
          by_cases low : Int32.ofNat (min cursor.spacesAhead maxIndentation) < least
          · rw [if_pos low, if_pos low]
            exact .done .unmatched
          · rw [if_neg low, if_neg low]
            exact moved_script child forward _ cursor
  | .cases arms, forward, parameters, cursor => by
      rw [script, script]
      exact moved_scriptCases arms forward parameters cursor

private theorem moved_scriptAll : (children : List Node) → isForwardAll children = true →
    (parameters : Parameters) → (cursor : Cursor) →
    Script.Moved front (scriptAll production children parameters cursor)
      (scriptAll production children parameters (cursor.behind front))
  | [], _, _, cursor => .done (.matched [] cursor)
  | node :: rest, forward, parameters, cursor => by
      obtain ⟨first, later⟩ := Bool.and_eq_true_iff.mp forward
      refine (moved_script node first parameters cursor).andThen (fun nodes stop => ?_)
        (.done .unmatched)
      refine (moved_scriptAll rest later parameters stop).andThen (fun more last => ?_)
        (.done .unmatched)
      rw [← Tree.movedAll_append]
      exact .done (.matched (nodes ++ more) last)

private theorem moved_scriptFirst : (children : List Node) → isForwardAll children = true →
    (parameters : Parameters) → (cursor : Cursor) →
    Script.Moved front (scriptFirst production children parameters cursor)
      (scriptFirst production children parameters (cursor.behind front))
  | [], _, _, _ => .done .unmatched
  | node :: rest, forward, parameters, cursor => by
      obtain ⟨first, later⟩ := Bool.and_eq_true_iff.mp forward
      exact (moved_script node first parameters cursor).andThen
        (fun nodes stop => .done (.matched nodes stop))
        (moved_scriptFirst rest later parameters cursor)

private theorem moved_scriptCases : (arms : List (Parameters × Node)) → isForwardArms arms = true →
    (parameters : Parameters) → (cursor : Cursor) →
    Script.Moved front (scriptCases production arms parameters cursor)
      (scriptCases production arms parameters (cursor.behind front))
  | [], _, _, _ => .done (.failed _)
  | (pattern, body) :: rest, forward, parameters, cursor => by
      obtain ⟨first, later⟩ := Bool.and_eq_true_iff.mp forward
      rw [scriptCases, scriptCases]
      split
      · exact moved_script body first parameters cursor
      · exact moved_scriptCases rest later parameters cursor

end

end Node

/-! ### Calls behind a text -/

/-- Whether no body of a grammar asks for what comes before. -/
def Grammar.isForward (grammar : Grammar) : Bool :=
  grammar.entries.all fun entry => entry.2.body.isForward

private theorem Grammar.isForward_body {grammar : Grammar} (forward : grammar.isForward = true)
    {name : String} {called : Production} (found : grammar.get? name = some called) :
    called.body.isForward = true :=
  List.all_eq_true.mp forward (name, called) (mem_entries_of_get? found)

private theorem Grammar.resolve_moved (grammar : Grammar) (caller name : String)
    (arguments : List Binding) (parameters : Parameters) (distance offset : Nat) :
    grammar.resolve caller name arguments parameters (distance + offset) =
      (grammar.resolve caller name arguments parameters offset).map
        fun (called, call) => (called, call.moved distance) := by
  unfold resolve
  cases grammar.get? name with
  | none => rfl
  | some called =>
      dsimp only
      split
      · cases bindArguments caller name parameters called.formals arguments .empty <;> rfl
      · rfl

namespace Setting

variable (setting : Setting)

private theorem conclude_moved {front : List Char} (call : Call) {reply reply' : Reply}
    (moved : Reply.Moved front reply reply') :
    Reply.Moved front (setting.conclude call reply)
      (setting.conclude (call.moved (byteLength front)) reply') := by
  obtain ⟨memory', rfl, related⟩ := moved.exists_memory
  obtain ⟨outcome, memory⟩ := reply
  cases outcome with
  | matched nodes stop => exact ⟨rfl, related.log (.success call stop.offset)⟩
  | failed error => exact ⟨rfl, related⟩
  | unmatched =>
      refine ⟨rfl, ?_⟩
      simp only [conclude, Outcome.behind]
      split
      · exact (related.log (.failure call)).remember call
      · exact related.log (.failure call)

/-- Where no body looks back, a call is answered behind a text as it is without it. -/
theorem invoke_moved (front : List Char) (forward : setting.grammar.isForward = true) (room : Nat)
    (caller : String) (ask : Ask) (memory memory' : Memory)
    (related : memory.Moved (byteLength front) memory') :
    Reply.Moved front ((setting.invoke room).reply caller ask memory)
      ((setting.invoke room).reply caller (ask.behind front) memory') := by
  induction room using Nat.strong_induction_on generalizing caller ask memory memory' with
  | _ room induction =>
      rw [Invoke.reply, Invoke.reply, invoke_eq, invoke_eq]
      simp only [Ask.behind, Cursor.offset_behind, Grammar.resolve_moved]
      cases resolved : setting.grammar.resolve caller ask.name ask.arguments ask.parameters
        ask.cursor.offset with
      | error error => exact ⟨rfl, related⟩
      | ok pair =>
          obtain ⟨called, call⟩ := pair
          simp only [Except.map, related.failures]
          split
          · exact ⟨rfl, related.log (.hit call)⟩
          · cases room with
            | zero => exact ⟨rfl, related⟩
            | succ room =>
                have found := (Grammar.resolve_eq_ok_iff.mp resolved).1
                have body := called.body.moved_script front call.name
                  (Grammar.isForward_body forward found) call.parameters ask.cursor
                exact setting.conclude_moved call (body.run
                  (induction room (Nat.lt_succ_self room) call.name) (related.log (.enter call)))

end Setting

/-- Evaluation that never looks back does not depend on what lies before. In a grammar without line
starts and lookbehinds, a fresh session evaluates an expression without them at a boundary of a
text, which is where the text is cut in two, as it does at the start of the second part alone: with
the same mismatch or error, or with the same trees, all ranges and the end moved by the length of
the first part. So are the events of the run. -/
theorem Session.ask_behind {grammar : Grammar} {node : Node}
    (forward : grammar.isForward = true) (ahead : node.isForward = true) (cached : Bool)
    (limit : Nat) (front rest : List Char) (parameters : Parameters) :
    let behind := (fresh ⟨grammar, cached, limit⟩ (front ++ rest)).ask
      ⟨byteLength front, parameters, node⟩
    let alone := (fresh ⟨grammar, cached, limit⟩ rest).ask ⟨0, parameters, node⟩
    behind.1 = alone.1.behind front ∧
      behind.2.takeEvents.1 = alone.2.takeEvents.1.map (.moved (byteLength front)) := by
  let setting : Setting := ⟨grammar, cached, limit⟩
  have calls := setting.invoke_moved front forward limit outside
  have moved := (node.moved_script front outside ahead parameters (.start rest)).run calls .fresh
  rw [← Node.evaluate_eq_run, ← Node.evaluate_eq_run] at moved
  simp only [ask, parse, takeEvents, Setting.parse, fresh, Cursor.at?_append, Cursor.at?_zero]
  exact ⟨moved.outcome, by rw [moved.memory.events, List.map_reverse]⟩

theorem Session.ask_block_behind_line :
    Grammar.blocks.isForward = true ∧ (Node.call "block").isForward = true ∧
      ∃ stop : Cursor, stop.offset = 6 ∧
        ((fresh ⟨Grammar.blocks, false, 2⟩ ['ä', '\n', ' ', ' ', 'x']).ask
          ⟨3, .empty, .call "block"⟩).1 =
          .matched [⟨"block", .empty, [⟨"line", { n := some 2 }, [], 3, 6⟩], 3, 6⟩]
            stop := by
  have alone : ((fresh ⟨Grammar.blocks, false, 2⟩ [' ', ' ', 'x']).ask
      ⟨0, .empty, .call "block"⟩).1 =
        .matched [⟨"block", .empty, [Tree.line], 0, 3⟩] ⟨['x', ' ', ' '], [], 3, rfl⟩ := rfl
  have forward : Grammar.blocks.isForward = true := rfl
  have ahead : (Node.call "block").isForward = true := rfl
  have behind := (ask_behind forward ahead false 2 ['ä', '\n'] [' ', ' ', 'x'] .empty).1
  rw [alone] at behind
  exact ⟨forward, ahead, _, rfl, behind⟩

end ParametricGrammar
