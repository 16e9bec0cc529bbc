import ParametricGrammar.Proofs.CallStack
import ParametricGrammar.Trace
/-!
# Events in brackets

An evaluation that keeps the stack of its active calls replies as one that does not, and it ends
with the calls that are active where it ends: none of its own, unless an error was raised inside of
them. The events that it reports enter and end calls like brackets, and leave open just these calls.
So a printer that counts brackets knows at every line how many calls are open around it.
-/

namespace ParametricGrammar

/-! ### Brackets -/

/-- Whether an event ends a call. -/
def Event.Ends (call : Call) : Event → Prop
  | .success other _ | .failure other => other = call
  | .enter _ | .hit _ | .zeroWidth _ _ => False

/-- Whether an event neither enters nor ends a call. -/
def Event.isRemark : Event → Bool
  | .hit _ | .zeroWidth _ _ => true
  | .enter _ | .success _ _ | .failure _ => false

/-- Every call that is entered is ended by one event, with balanced events in between. -/
inductive Balanced : List Event → Prop where
  | nil : Balanced []
  | remark {event : Event} {later : List Event} (remark : event.isRemark = true)
      (rest : Balanced later) : Balanced (event :: later)
  | call {call : Call} {closing : Event} {inside later : List Event} (body : Balanced inside)
      (ends : closing.Ends call) (rest : Balanced later) :
      Balanced (.enter call :: (inside ++ closing :: later))

/-- Calls are entered one inside the other and stay open, the outermost first. All other events
are balanced. -/
inductive Opens : List Call → List Event → Prop where
  | none {events : List Event} (balanced : Balanced events) : Opens [] events
  | enter {call : Call} {calls : List Call} {earlier later : List Event}
      (before : Balanced earlier) (inside : Opens calls later) :
      Opens (call :: calls) (earlier ++ .enter call :: later)

namespace Balanced

variable {earlier later : List Event} {calls : List Call}

private theorem append (before : Balanced earlier) (behind : Balanced later) :
    Balanced (earlier ++ later) := by
  induction before with
  | nil => exact behind
  | remark remark _ rest => exact .remark remark rest
  | call body ends _ _ rest =>
      rw [List.cons_append, List.append_assoc, List.cons_append]
      exact .call body ends rest

private theorem append_opens (before : Balanced earlier) (opens : Opens calls later) :
    Opens calls (earlier ++ later) := by
  cases opens with
  | none balanced => exact .none (before.append balanced)
  | enter between inside =>
      rw [← List.append_assoc]
      exact .enter (before.append between) inside

/-- One call with balanced events inside. -/
theorem enclose {call : Call} {closing : Event} (body : Balanced earlier)
    (ends : closing.Ends call) : Balanced (.enter call :: earlier ++ [closing]) :=
  .call body ends .nil

end Balanced

private theorem Opens.balanced {events : List Event} (opens : Opens [] events) :
    Balanced events := by
  cases opens with
  | none balanced => exact balanced

/-! ### The depth of a printer -/

/-- The active calls after an event that ends none but the innermost one. -/
def Event.track? (active : List Call) : Event → Option (List Call)
  | .enter call => some (call :: active)
  | .success call _ | .failure call =>
      if active.head? = some call then some active.tail else none
  | .hit _ | .zeroWidth _ _ => some active

/-- The calls that are open around an event: those open before it, but for the one that it ends. -/
def callsAround (before : List Event) (event : Event) : List Call :=
  match event with
  | .success call _ | .failure call => (openCalls before).erase call
  | .enter _ | .hit _ | .zeroWidth _ _ => openCalls before

section Tracking

variable {active next stack : List Call} {event : Event} {events before later : List Event}

private theorem Balanced.tracked (balanced : Balanced events) (active : List Call) :
    events.foldlM Event.track? active = some active := by
  induction balanced generalizing active with
  | nil => rfl
  | @remark event later remark _ rest =>
      rw [List.foldlM_cons]
      cases event with
      | hit | zeroWidth => exact rest active
      | enter | success | failure => cases remark
  | @call call closing inside later _ ends _ body rest =>
      have closed : closing.track? (call :: active) = some active := by
        cases closing with
        | success | failure =>
            cases ends
            exact if_pos rfl
        | enter | hit | zeroWidth => cases ends
      rw [List.foldlM_cons]
      change (inside ++ closing :: later).foldlM Event.track? (call :: active) = some active
      rw [List.foldlM_append, body (call :: active)]
      change (closing :: later).foldlM Event.track? (call :: active) = some active
      rw [List.foldlM_cons, closed]
      exact rest active

/-- Tracking with a check tracks, and a printer counts the calls that are tracked. -/
theorem track_of_track? (tracks : event.track? active = some next) :
    event.track active = next ∧
      ∀ depth, TraceView.depthAfter (depth + active.length) event = depth + next.length := by
  cases event with
  | enter call =>
      cases tracks
      exact ⟨rfl, fun depth => rfl⟩
  | hit | zeroWidth =>
      cases tracks
      exact ⟨rfl, fun depth => rfl⟩
  | success call | failure call =>
      obtain ⟨innermost, popped⟩ := Option.ite_none_right_eq_some.mp tracks
      obtain ⟨outer, rfl⟩ := List.head?_eq_some_iff.mp innermost
      cases popped
      exact ⟨List.erase_cons_head call outer, fun depth => rfl⟩

private theorem track_of_tracked (tracked : events.foldlM Event.track? active = some stack) :
    events.foldl Event.track active = stack ∧
      ∀ depth, TraceView.depthAfterAll (depth + active.length) events = depth + stack.length := by
  induction events generalizing active with
  | nil =>
      cases tracked
      exact ⟨rfl, fun depth => rfl⟩
  | cons event events induction =>
      rw [List.foldlM_cons, Option.bind_eq_bind, Option.bind_eq_some_iff] at tracked
      obtain ⟨next, tracks, rest⟩ := tracked
      obtain ⟨first, counts⟩ := track_of_track? tracks
      obtain ⟨all, countsAll⟩ := induction rest
      refine ⟨by rw [List.foldl_cons, first, all], fun depth => ?_⟩
      rw [TraceView.depthAfterAll, List.foldl_cons, counts depth]
      exact countsAll depth

/-- The line of an event stands at the number of calls around it. -/
theorem lineDepth_eq (tracked : (before ++ event :: later).foldlM Event.track? [] = some stack)
    (depth : Nat) :
    TraceView.lineDepth (TraceView.depthAfterAll depth before) event =
      depth + (callsAround before event).length := by
  rw [List.foldlM_append, Option.bind_eq_bind, Option.bind_eq_some_iff] at tracked
  obtain ⟨active, earlier, rest⟩ := tracked
  rw [List.foldlM_cons, Option.bind_eq_bind, Option.bind_eq_some_iff] at rest
  obtain ⟨next, tracks, -⟩ := rest
  obtain ⟨same, counts⟩ := track_of_tracked earlier
  have opened : openCalls before = active := same
  have count : TraceView.depthAfterAll depth before = depth + active.length := counts depth
  rw [count]
  cases event with
  | enter | hit | zeroWidth => rw [callsAround, opened, TraceView.lineDepth]
  | success call stop =>
      obtain ⟨closed, counted⟩ := track_of_track? tracks
      rw [callsAround, opened]
      change active.erase call = next at closed
      rw [closed, ← counted depth]
      rfl
  | failure call =>
      obtain ⟨closed, counted⟩ := track_of_track? tracks
      rw [callsAround, opened]
      change active.erase call = next at closed
      rw [closed, ← counted depth]
      rfl

end Tracking

namespace TraceView

variable (view : TraceView)

private theorem linesAfter_eq (earlier : List String) (depth : Nat) (events : List Event) :
    view.linesAfter earlier depth events = earlier.reverse ++ view.lines depth events := by
  unfold lines
  induction events generalizing earlier depth with
  | nil => simp [linesAfter]
  | cons event events induction =>
      rw [linesAfter, linesAfter]
      cases view.line? event with
      | none => exact induction earlier _
      | some line => simp [induction (_ :: _)]

/-- The line of an event, if it has one, at a depth. -/
def lineAt (depth : Nat) (event : Event) : List String :=
  ((view.line? event).map (Tree.indentation depth ++ ·)).toList

theorem lines_cons (depth : Nat) (event : Event) (events : List Event) :
    view.lines depth (event :: events) =
      view.lineAt (lineDepth depth event) event ++ view.lines (depthAfter depth event) events := by
  rw [lines, linesAfter, linesAfter_eq, lineAt]
  cases view.line? event <;> rfl

private theorem lines_append (depth : Nat) (earlier later : List Event) :
    view.lines depth (earlier ++ later) =
      view.lines depth earlier ++ view.lines (depthAfterAll depth earlier) later := by
  induction earlier generalizing depth with
  | nil => rfl
  | cons event earlier induction =>
      rw [List.cons_append, lines_cons, lines_cons, induction, List.append_assoc]
      rfl

/-- Every line stands at a starting depth plus the number of calls open around its event. -/
def Aligned (depth : Nat) (events : List Event) : Prop :=
  ∀ before event later, events = before ++ event :: later →
    view.lines depth events =
      view.lines depth before ++
        view.lineAt (depth + (callsAround before event).length) event ++
        view.lines (depthAfterAll depth (before ++ [event])) later

private theorem aligned_of_balanced {events : List Event} (balanced : Balanced events)
    (depth : Nat) :
    view.Aligned depth events := by
  rintro before event later rfl
  rw [lines_append, lines_cons, lineDepth_eq (balanced.tracked []), List.append_assoc]
  simp [depthAfterAll]

private theorem depthAfterAll_of_balanced {events : List Event} (balanced : Balanced events)
    (depth : Nat) : depthAfterAll depth events = depth :=
  (track_of_tracked (balanced.tracked [])).2 depth

end TraceView

/-! ### Evaluation with the stack of active calls -/

/-- A reply with the calls that are active where the evaluation ended, the innermost first. -/
abbrev Halt := Reply × List Call

/-- Runs a script while some calls are active. An error leaves the stack as it was where the error
was raised. -/
def Script.runOn (calls : Ask → Memory → Halt) (active : List Call) : Script → Memory → Halt
  | .done outcome, memory => ((outcome, memory), active)
  | .note production offset later, memory =>
      later.runOn calls active (memory.log (.zeroWidth production offset))
  | .call ask onMatch onMiss, memory =>
      match calls ask memory with
      | ((.matched nodes stop, memory), _) => (onMatch nodes stop).runOn calls active memory
      | ((.unmatched, memory), _) => onMiss.runOn calls active memory
      | ((.failed error, memory), raised) => ((.failed error, memory), raised)

/-- The name of the production that makes calls while some are active. -/
def callerOn : List Call → String
  | [] => outside
  | innermost :: _ => innermost.name

namespace Setting

/-- Takes a call off the stack when its body has ended without an error. -/
def leave (setting : Setting) (call : Call) (active : List Call) : Halt → Halt
  | ((.failed error, memory), raised) => ((.failed error, memory), raised)
  | (reply, _) => (setting.conclude call reply, active)

/-- Evaluates a call while some calls are active, of which there may be no more than the limit. -/
def callOn (setting : Setting) (active : List Call) (ask : Ask) (memory : Memory) : Halt :=
  match setting.grammar.resolve (callerOn active) ask.name ask.arguments ask.parameters
      ask.cursor.offset with
  | .error error => ((.failed error, memory), active)
  | .ok (called, call) =>
      if setting.cached && memory.failures.contains call then
        ((.unmatched, memory.log (.hit call)), active)
      else if _room : active.length < setting.limit then
        setting.leave call active
          ((called.body.script call.name call.parameters ask.cursor).runOn
            (setting.callOn (call :: active)) (call :: active) (memory.log (.enter call)))
      else ((.failed (.recursionLimitExceeded setting.limit), memory), active)
termination_by setting.limit - active.length
decreasing_by
  rw [List.length_cons]
  omega

end Setting

/-- Runs with and without the stack reply alike if their calls do. -/
theorem Script.runOn_fst {calls : Ask → Memory → Halt} {plain : Ask → Memory → Reply}
    (same : ∀ ask memory, (calls ask memory).1 = plain ask memory) (active : List Call)
    (script : Script) (memory : Memory) :
    (script.runOn calls active memory).1 = script.run plain memory := by
  induction script generalizing memory with
  | done outcome => rfl
  | note production offset later induction => exact induction _
  | call ask onMatch onMiss hit miss =>
      rw [runOn, run, ← same]
      match calls ask memory with
      | ((.matched nodes stop, after), _) => exact hit nodes stop after
      | ((.unmatched, after), _) => exact miss after
      | ((.failed error, after), raised) => rfl

namespace Setting

variable {setting : Setting} {room : Nat} {active : List Call}

private theorem leave_fst (call : Call) (active : List Call) (halt : Halt) :
    (setting.leave call active halt).1 = setting.conclude call halt.1 := by
  match halt with
  | ((.matched nodes stop, after), _) => rfl
  | ((.unmatched, after), _) => rfl
  | ((.failed error, after), raised) => rfl

/-- A call replies with the stack as it does with the room that the stack leaves. -/
theorem callOn_fst (rooms : active.length + room = setting.limit) (ask : Ask) (memory : Memory) :
    (setting.callOn active ask memory).1 =
      (setting.invoke room).reply (callerOn active) ask memory := by
  fun_induction setting.callOn active ask memory generalizing room with
  | case1 active ask memory error fails => rw [Invoke.reply, invoke_eq, fails]
  | case2 active ask memory called call resolved known =>
      rw [Invoke.reply, invoke_eq, resolved]
      exact (if_pos known).symm
  | case3 active ask memory called call resolved unknown fits induction =>
      obtain ⟨room, rfl⟩ := Nat.exists_eq_succ_of_ne_zero (show room ≠ 0 by omega)
      have deeper : (call :: active).length + room = setting.limit := by
        rw [List.length_cons]
        omega
      rw [leave_fst, Script.runOn_fst fun ask memory => induction ask memory deeper, Invoke.reply,
        invoke_eq, resolved]
      exact (if_neg unknown).symm
  | case4 active ask memory called call resolved unknown full =>
      obtain rfl : room = 0 := by omega
      rw [Invoke.reply, invoke_eq, resolved]
      exact (if_neg unknown).symm

private theorem callOn_answers (within : active.length ≤ setting.limit) (ask : Ask)
    (memory : Memory) (sound : memory.Sound setting.grammar ask.cursor.whole) :
    setting.Answers (setting.limit - active.length) (callerOn active)
      (.node (.reference ask.name ask.arguments)) ask.parameters ask.cursor
      (setting.callOn active ask memory).1 := by
  rw [callOn_fst (Nat.add_sub_of_le within)]
  exact setting.invoke_answers _ _ _ _ _ _ _ sound

/-! ### Events of an evaluation with a stack -/

/-- An evaluation gains events that leave open the calls on its last stack above those that were
active before it. These are none without an error, and a stack as high as the limit if the limit is
exceeded. -/
structure Brackets (setting : Setting) (active : List Call) (memory : Memory) (halt : Halt) :
    Prop where
  opens : ∃ opened events, memory.Gains halt.1.2 events ∧ Opens opened events ∧
    halt.2 = opened.reverse ++ active
  closes : (∀ error, halt.1.1 ≠ .failed error) → halt.2 = active
  fills : ∀ limit, halt.1.1 = .failed (.recursionLimitExceeded limit) →
    halt.2.length = setting.limit

namespace Brackets

variable {memory after : Memory} {outcome : Outcome} {halt : Halt} {call : Call}

/-- An evaluation without an event that does not exceed the limit. -/
theorem still (memory : Memory)
    (within : ∀ limit, outcome ≠ .failed (.recursionLimitExceeded limit)) :
    setting.Brackets active memory ((outcome, memory), active) where
  opens := ⟨[], [], .refl memory, .none .nil, rfl⟩
  closes _ := rfl
  fills limit exceeded := absurd exceeded (within limit)

private theorem remark (event : Event) (remark : event.isRemark = true)
    (later : setting.Brackets active (memory.log event) halt) :
    setting.Brackets active memory halt := by
  obtain ⟨opened, events, gains, opens, stack⟩ := later.opens
  have first : Balanced [event] := .remark remark .nil
  exact ⟨⟨opened, _, (Memory.Gains.log memory event).trans gains, first.append_opens opens, stack⟩,
    later.closes, later.fills⟩

/-- The events of an evaluation without an error are balanced. -/
theorem balanced (brackets : setting.Brackets active memory halt)
    (continues : ∀ error, halt.1.1 ≠ .failed error) :
    ∃ events, memory.Gains halt.1.2 events ∧ Balanced events := by
  obtain ⟨opened, events, gains, opens, stack⟩ := brackets.opens
  have none : opened = [] := by
    simpa [brackets.closes continues] using stack
  subst none
  exact ⟨events, gains, opens.balanced⟩

theorem trans {first : Halt} (before : setting.Brackets active memory first)
    (continues : ∀ error, first.1.1 ≠ .failed error)
    (later : setting.Brackets active first.1.2 halt) : setting.Brackets active memory halt := by
  obtain ⟨earlier, gained, balanced⟩ := before.balanced continues
  obtain ⟨opened, events, gains, opens, stack⟩ := later.opens
  exact ⟨⟨opened, _, gained.trans gains, balanced.append_opens opens, stack⟩, later.closes,
    later.fills⟩

/-- A call is ended by an event of its own, or stays open if its body ends in an error. -/
theorem leave (body : setting.Brackets (call :: active) (memory.log (.enter call)) halt) :
    setting.Brackets active memory (setting.leave call active halt) := by
  have entered := Memory.Gains.log memory (.enter call)
  match halt with
  | ((.failed error, after), raised) =>
      obtain ⟨opened, events, gains, opens, stack⟩ := body.opens
      refine ⟨⟨call :: opened, _, entered.trans gains, .enter .nil opens, ?_⟩,
        fun ends => absurd rfl (ends error), body.fills⟩
      rw [List.reverse_cons, List.append_assoc]
      exact stack
  | ((.matched nodes stop, after), raised) =>
      obtain ⟨events, gains, balanced⟩ := body.balanced nofun
      exact ⟨⟨[], _, (entered.trans gains).trans (.log after (.success call stop.offset)),
        .none (balanced.enclose rfl), rfl⟩, fun _ => rfl, nofun⟩
  | ((.unmatched, after), raised) =>
      obtain ⟨events, gains, balanced⟩ := body.balanced nofun
      have failed : after.Gains (setting.conclude call (.unmatched, after)).2 [.failure call] := by
        unfold Memory.Gains conclude
        dsimp only
        split <;> rfl
      exact ⟨⟨[], _, (entered.trans gains).trans failed, .none (balanced.enclose rfl), rfl⟩,
        fun _ => rfl, nofun⟩

end Brackets

/-- The run of a script reports its calls in brackets if they do. -/
theorem brackets_run {text : List Char} {script : Script} {memory : Memory}
    (within : active.length ≤ setting.limit)
    (calls : ∀ ask memory, memory.Sound setting.grammar ask.cursor.whole →
      setting.Brackets active memory (setting.callOn active ask memory))
    (stays : script.Stays text) (sound : memory.Sound setting.grammar text) :
    setting.Brackets active memory
      (script.runOn (setting.callOn active) active memory) := by
  induction script generalizing memory with
  | done outcome =>
      refine .still memory fun limit exceeded => ?_
      subst exceeded
      exact stays limit rfl
  | note production offset later induction =>
      exact .remark (.zeroWidth production offset) rfl (induction stays (sound.log _))
  | call ask onMatch onMiss hit miss =>
      obtain ⟨rfl, stays, staysOnMiss⟩ := stays
      have first := calls ask memory sound
      have answers := callOn_answers within ask memory sound
      rw [Script.runOn]
      match reply : setting.callOn active ask memory with
      | ((.matched nodes stop, after), _) =>
          rw [reply] at first answers
          exact first.trans nofun (hit nodes stop (stays nodes stop answers.derives.whole_eq)
            answers.memory)
      | ((.unmatched, after), _) =>
          rw [reply] at first answers
          exact first.trans nofun (miss staysOnMiss answers.memory)
      | ((.failed error, after), raised) =>
          rw [reply] at first
          exact first

private theorem callOn_brackets (within : active.length ≤ setting.limit) (ask : Ask)
    (memory : Memory) (sound : memory.Sound setting.grammar ask.cursor.whole) :
    setting.Brackets active memory (setting.callOn active ask memory) := by
  fun_induction setting.callOn active ask memory with
  | case1 active ask memory error fails =>
      refine .still memory fun limit exceeded => ?_
      cases exceeded
      exact Grammar.resolve_ne_exceeded limit fails
  | case2 active ask memory called call => exact .remark (.hit call) rfl (.still _ nofun)
  | case3 active ask memory called call resolved unknown fits induction =>
      exact .leave (brackets_run fits (fun ask memory => induction ask memory fits)
        (called.body.stays_script call.name call.parameters rfl) (sound.log _))
  | case4 active ask memory called call resolved unknown full =>
      exact ⟨⟨[], [], .refl memory, .none .nil, rfl⟩, fun ends => absurd rfl (ends _),
        fun _ _ => Nat.le_antisymm within (Nat.le_of_not_lt full)⟩

end Setting

/-! ### Queries -/

namespace Session

/-- The answer to a query, what is remembered after it, and the calls that are active where its
evaluation ends. -/
def askOn (session : Session) (query : Query) : Halt :=
  match Cursor.at? session.text query.offset with
  | some cursor =>
      (query.node.script outside query.parameters cursor).runOn (session.setting.callOn []) []
        session.memory
  | none => ((.unmatched, session.memory), [])

variable {session : Session}

private theorem askOn_fst (query : Query) :
    (session.askOn query).1 = ((session.ask query).1, (session.ask query).2.memory) := by
  rw [askOn]
  simp only [ask, parse, Setting.parse]
  cases Cursor.at? session.text query.offset with
  | none => rfl
  | some cursor =>
      dsimp only
      rw [Node.evaluate_eq_run]
      exact Script.runOn_fst (Setting.callOn_fst (Nat.zero_add _)) [] _ _

private theorem Sound.brackets (sound : session.Sound) (query : Query) :
    session.setting.Brackets [] session.memory (session.askOn query) := by
  rw [askOn]
  cases located : Cursor.at? session.text query.offset with
  | none => exact .still _ nofun
  | some cursor =>
      obtain ⟨whole, -⟩ := Cursor.at?_eq_some_iff.mp located
      exact Setting.brackets_run (Nat.zero_le _) (Setting.callOn_brackets (Nat.zero_le _))
        (query.node.stays_script outside query.parameters whole) sound

/-- Events are bracketed. In a query to a session with any history they are balanced if there is no
error, and then a printer is as deep after them as before them and prints each line as deep as calls
are open around its event. After an error they leave open the calls that were active where it was
raised, as many as the limit if that was exceeded. -/
theorem events_bracketed (setting : Setting) (text : List Char) (earlier : List Query)
    (query : Query) :
    let session := ((fresh setting text).after earlier).takeEvents.2
    let asked := session.ask query
    let events := asked.2.takeEvents.1
    (session.askOn query).1 = (asked.1, asked.2.memory) ∧
      match asked.1 with
      | .matched _ _ | .unmatched =>
          Balanced events ∧ ∀ (view : TraceView) (depth : Nat),
            TraceView.depthAfterAll depth events = depth ∧ view.Aligned depth events
      | .failed error =>
          Opens (session.askOn query).2.reverse events ∧
            ∀ limit, error = .recursionLimitExceeded limit →
              (session.askOn query).2.length = setting.limit := by
  intro session asked events
  have sound : session.Sound := (sound_fresh setting text).after earlier
  have same : session.setting = setting := setting_after earlier
  have brackets := sound.brackets query
  have fst : (session.askOn query).1 = (asked.1, asked.2.memory) := askOn_fst query
  -- The memory starts without events, so those of the query are all that it holds afterwards.
  have all : ∀ {gained : List Event}, session.memory.Gains asked.2.memory gained →
      gained = events := by
    intro gained gains
    have none : session.memory.events = [] := rfl
    change gained = asked.2.memory.events.reverse
    rw [gains, none, List.append_nil, List.reverse_reverse]
  have balanced : (∀ error, asked.1 ≠ .failed error) → Balanced events ∧
      ∀ (view : TraceView) (depth : Nat),
        TraceView.depthAfterAll depth events = depth ∧ view.Aligned depth events := by
    intro continues
    obtain ⟨gained, gains, balanced⟩ := brackets.balanced (by rw [fst]; exact continues)
    rw [fst] at gains
    rw [all gains] at balanced
    exact ⟨balanced, fun view depth =>
      ⟨TraceView.depthAfterAll_of_balanced balanced depth, view.aligned_of_balanced balanced depth⟩⟩
  refine ⟨fst, ?_⟩
  cases ends : asked.1 with
  | matched nodes stop => exact balanced (by simp [ends])
  | unmatched => exact balanced (by simp [ends])
  | failed error =>
      obtain ⟨opened, gained, gains, opens, stack⟩ := brackets.opens
      rw [fst] at gains
      rw [all gains] at opens
      refine ⟨?_, fun limit exceeded => ?_⟩
      · rw [stack, List.append_nil, List.reverse_reverse]
        exact opens
      · rw [← same]
        exact brackets.fills limit (by rw [fst, ends, exceeded])

end Session

end ParametricGrammar
