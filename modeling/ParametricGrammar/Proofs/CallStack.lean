import ParametricGrammar.Proofs.Histories
import ParametricGrammar.Proofs.Scripts
/-!
# The stack of active calls

Within the limit no call is entered while it is active. A call that has an outcome at all has a
least depth of nesting that settles it, and its body asks only for calls that a smaller depth
settles: so the calls on the stack, which that depth does not settle, are not among them. What is
remembered from earlier does not matter, as it only shortens the way through the same script.

It follows that each failure is derived once, and that a call is skipped only behind its failure.
-/

namespace ParametricGrammar

/-! ### Depths that settle a call -/

/-- A call has an outcome with fewer than so many calls nested in it. -/
def Call.Settles (grammar : Grammar) (text : List Char) (depth : ℕ) (call : Call) : Prop :=
  ∃ (called : Production) (cursor : Cursor) (outcome : Outcome) (inner : ℕ∞),
    grammar.get? call.name = some called ∧ cursor.whole = text ∧ cursor.offset = call.offset ∧
      inner + 1 ≤ depth ∧
      Derives grammar inner call.name (.node called.body) call.parameters cursor outcome

namespace Call.Settles

variable {grammar : Grammar} {text : List Char} {depth : ℕ} {call : Call}

theorem mono {deeper : ℕ} (le : depth ≤ deeper) (settles : call.Settles grammar text depth) :
    call.Settles grammar text deeper := by
  obtain ⟨called, cursor, outcome, inner, found, whole, located, nests, body⟩ := settles
  exact ⟨called, cursor, outcome, inner, found, whole, located,
    nests.trans (by exact_mod_cast le), body⟩

private theorem not_zero : ¬ call.Settles grammar text 0 := by
  rintro ⟨called, cursor, outcome, inner, -, -, -, nests, -⟩
  simp at nests

/-- There is a least depth that settles a call, and it is not zero. -/
theorem exists_least (settles : call.Settles grammar text depth) :
    ∃ least < depth, ¬ call.Settles grammar text least ∧ call.Settles grammar text (least + 1) := by
  induction depth with
  | zero => exact absurd settles not_zero
  | succ depth induction =>
      by_cases earlier : call.Settles grammar text depth
      · obtain ⟨least, less, bounds⟩ := induction earlier
        exact ⟨least, less.trans (Nat.lt_succ_self depth), bounds⟩
      · exact ⟨depth, Nat.lt_succ_self depth, earlier, settles⟩

/-- The body of a settled call has an outcome with less nesting. -/
theorem exists_body {called : Production} {cursor : Cursor}
    (settles : call.Settles grammar text (depth + 1))
    (found : grammar.get? call.name = some called) (whole : cursor.whole = text)
    (located : cursor.offset = call.offset) :
    ∃ outcome,
      Derives grammar depth call.name (.node called.body) call.parameters cursor outcome := by
  obtain ⟨called', place, outcome, inner, found', whole', located', nests, body⟩ := settles
  obtain rfl := Option.some.inj (found.symm.trans found')
  obtain rfl := Cursor.eq_of_offset_eq (whole.trans whole'.symm) (located.trans located'.symm)
  rw [Nat.cast_succ, ENat.add_le_add_iff_right ENat.one_ne_top] at nests
  exact ⟨outcome, body.mono nests⟩

end Call.Settles

private theorem Derives.settles {grammar : Grammar} {depth : ℕ} {caller name : String}
    {arguments : List Binding} {parameters : Parameters} {cursor : Cursor} {outcome : Outcome}
    {called : Production} {call : Call}
    (derives : Derives grammar depth caller (.node (.reference name arguments)) parameters cursor
      outcome)
    (resolved : grammar.resolve caller name arguments parameters cursor.offset =
      .ok (called, call)) :
    call.Settles grammar cursor.whole depth := by
  rw [derives_reference_iff, resolved] at derives
  obtain ⟨inner, body, nests, derives, -⟩ := derives
  obtain ⟨found, -, bound, -, rfl⟩ := Grammar.resolve_eq_ok_iff.mp resolved
  exact ⟨called, cursor, body, inner, found, rfl, rfl, nests, derives⟩

/-! ### Active calls -/

/-- The active calls after an event, with the innermost first. -/
def Event.track (active : List Call) : Event → List Call
  | .enter call => call :: active
  | .success call _ | .failure call => active.erase call
  | .hit _ | .zeroWidth _ _ => active

/-- The calls that were entered and have not ended after some events, with the innermost first. -/
def openCalls (events : List Event) : List Call := events.foldl Event.track []

/-- No event enters a call that is active before it. -/
def NeverReenters : List Call → List Event → Prop
  | _, [] => True
  | active, event :: later =>
      (∀ call, event = .enter call → call ∉ active) ∧ NeverReenters (event.track active) later

private theorem neverReenters_append {active : List Call} {earlier later : List Event} :
    NeverReenters active (earlier ++ later) ↔
      NeverReenters active earlier ∧ NeverReenters (earlier.foldl Event.track active) later := by
  induction earlier generalizing active with
  | nil => simp [NeverReenters]
  | cons event earlier induction => simp [NeverReenters, induction, and_assoc]

/-- The calls that the events enter are new to the stack. -/
theorem NeverReenters.notMem_openCalls {before later : List Event} {call : Call}
    (never : NeverReenters [] (before ++ .enter call :: later)) : call ∉ openCalls before :=
  (neverReenters_append.mp never).2.1 call rfl

/-! ### Events of a run -/

/-- The events by which a memory grows to another one, in order. -/
def Memory.Gains (before after : Memory) (events : List Event) : Prop :=
  after.events = events.reverse ++ before.events

namespace Memory.Gains

variable {first second third : Memory} {earlier later : List Event}

theorem refl (memory : Memory) : memory.Gains memory [] := rfl

theorem log (memory : Memory) (event : Event) : memory.Gains (memory.log event) [event] := rfl

theorem trans (left : first.Gains second earlier) (right : second.Gains third later) :
    first.Gains third (earlier ++ later) := by
  unfold Gains at *
  rw [right, left, List.reverse_append, List.append_assoc]

end Memory.Gains

/-- The events of something with an outcome, while some calls are active: none of these is entered,
failures are of calls that a depth settles, and whatever is entered has ended if there was no
error. -/
structure Orderly (grammar : Grammar) (text : List Char) (depth : ℕ) (active : List Call)
    (outcome : Outcome) (events : List Event) : Prop where
  enters : NeverReenters active events
  failures : ∀ call, .failure call ∈ events → call.Settles grammar text depth
  closes : (∀ error, outcome ≠ .failed error) → events.foldl Event.track active = active

namespace Orderly

variable {grammar : Grammar} {text : List Char} {depth : ℕ} {active : List Call}
  {outcome : Outcome}

private theorem nil : Orderly grammar text depth active outcome [] :=
  ⟨trivial, by simp, fun _ => rfl⟩

/-- A single event that tells nothing about the stack. -/
theorem single {event : Event} (tracks : ∀ active, event.track active = active)
    (enters : ∀ call, event ≠ .enter call) (fails : ∀ call, event ≠ .failure call) :
    Orderly grammar text depth active outcome [event] := by
  refine ⟨⟨fun call enter => absurd enter (enters call), trivial⟩, fun call member => ?_,
    fun _ => tracks active⟩
  exact absurd (List.mem_singleton.mp member).symm (fails call)

private theorem append {first : Outcome} {earlier later : List Event}
    (left : Orderly grammar text depth active first earlier)
    (continues : ∀ error, first ≠ .failed error)
    (right : Orderly grammar text depth active outcome later) :
    Orderly grammar text depth active outcome (earlier ++ later) := by
  have closed := left.closes continues
  refine ⟨?_, fun call member => ?_, fun ends => ?_⟩
  · rw [neverReenters_append, closed]
    exact ⟨left.enters, right.enters⟩
  · exact (List.mem_append.mp member).elim (left.failures call) (right.failures call)
  · rw [List.foldl_append, closed, right.closes ends]

variable {least : ℕ} {call : Call} {events : List Event}

/-- The events of a call whose body ends in an error. -/
theorem enter {error : RunError} (le : least ≤ depth) (fresh : call ∉ active)
    (body : Orderly grammar text least (call :: active) outcome events) :
    Orderly grammar text depth active (.failed error) (.enter call :: events) := by
  refine ⟨⟨fun other enter => ?_, body.enters⟩, fun other member => ?_,
    fun ends => absurd rfl (ends error)⟩
  · cases enter
    exact fresh
  · simp only [List.mem_cons, reduceCtorEq, false_or] at member
    exact (body.failures other member).mono le

/-- The events of a call whose body ends without an error, closed by one that ends the call. -/
theorem enclose {closing : Event} {result : Outcome} (le : least ≤ depth) (fresh : call ∉ active)
    (settles : call.Settles grammar text depth)
    (body : Orderly grammar text least (call :: active) outcome events)
    (continues : ∀ error, outcome ≠ .failed error)
    (ends : closing = .failure call ∨ ∃ stop, closing = .success call stop) :
    Orderly grammar text depth active result (.enter call :: events ++ [closing]) := by
  have closed := body.closes continues
  have entered : Orderly grammar text depth active (.failed (.noMatch call.name))
      (.enter call :: events) := body.enter le fresh
  have track : closing.track (call :: active) = active := by
    rcases ends with rfl | ⟨stop, rfl⟩ <;> exact List.erase_cons_head call active
  refine ⟨?_, fun other member => ?_, fun _ => ?_⟩
  · refine neverReenters_append.mpr ⟨entered.enters, fun other enter => ?_, trivial⟩
    rcases ends with rfl | ⟨stop, rfl⟩ <;> cases enter
  · rcases List.mem_append.mp member with member | member
    · exact entered.failures other member
    · rcases ends with rfl | ⟨stop, rfl⟩ <;> cases List.mem_singleton.mp member
      exact settles
  · have whole : (Event.enter call :: events).foldl Event.track active = call :: active := closed
    rw [List.foldl_append, whole]
    exact track

end Orderly

/-! ### Runs -/

namespace Setting

variable {setting : Setting} {room : Nat}

/-- The limit is exceeded, or the memory grows by orderly events. -/
def Orders (setting : Setting) (text : List Char) (depth : ℕ) (active : List Call)
    (memory : Memory) (reply : Reply) : Prop :=
  reply.1 = .failed (.recursionLimitExceeded setting.limit) ∨
    ∃ events, memory.Gains reply.2 events ∧
      Orderly setting.grammar text depth active reply.1 events

/-- Every call that a depth settles proceeds in order while no active call is settled by it. -/
def CallsOrder (setting : Setting) (room : Nat) : Prop :=
  ∀ (depth : ℕ) (active : List Call) (caller name : String) (arguments : List Binding)
    (parameters : Parameters) (cursor : Cursor) (memory : Memory) (outcome : Outcome),
    memory.Sound setting.grammar cursor.whole →
    Derives setting.grammar depth caller (.node (.reference name arguments)) parameters cursor
      outcome →
    (∀ call ∈ active, ¬ call.Settles setting.grammar cursor.whole depth) →
    setting.Orders cursor.whole depth active memory
      (setting.invoke room caller name arguments parameters cursor memory)

/-- The run of a script goes the way that derivable answers lead, so it proceeds in order as the
calls on this way do. -/
theorem orders_run (production : String) {text : List Char} {depth : ℕ} {active : List Call}
    {script : Script} {asked : List Ask} {outcome : Outcome} {memory : Memory}
    (calls : setting.CallsOrder room) (stays : script.Stays text)
    (sound : memory.Sound setting.grammar text)
    (follows : script.Follows (Ask.Has setting.grammar depth production) asked outcome)
    (unsettled : ∀ call ∈ active, ¬ call.Settles setting.grammar text depth) :
    setting.Orders text depth active memory
      (script.run ((setting.invoke room).reply production) memory) := by
  induction script generalizing memory asked with
  | done result => exact .inr ⟨[], .refl memory, .nil⟩
  | note name offset later induction =>
      cases follows with
      | note rest =>
          refine (induction stays (sound.log (.zeroWidth name offset)) rest).imp_right ?_
          rintro ⟨events, gains, orderly⟩
          have noted : Orderly setting.grammar text depth active .unmatched
              [.zeroWidth name offset] :=
            .single (fun _ => rfl) (by simp) (by simp)
          exact ⟨_, .trans (.log memory _) gains, noted.append (by simp) orderly⟩
  | call ask onMatch onMiss hit miss =>
      obtain ⟨rfl, stays, staysOnMiss⟩ := stays
      have answers := setting.invoke_answers room production ask.name ask.arguments ask.parameters
        ask.cursor memory sound
      change setting.Answers room production _ _ _
        ((setting.invoke room).reply production ask memory) at answers
      have follow : ∀ {answer}, ask.Has setting.grammar depth production answer →
          setting.Orders ask.cursor.whole depth active memory
            ((setting.invoke room).reply production ask memory) :=
        fun derives => calls _ _ _ _ _ _ _ _ _ sound derives unsettled
      rw [Script.run]
      cases reply : (setting.invoke room).reply production ask memory with
      | mk result after =>
      rw [reply] at answers follow
      cases result with
      | failed error =>
          cases follows with
          | matched answer _ => exact follow answer
          | unmatched answer _ => exact follow answer
          | failed answer => exact follow answer
      | unmatched =>
          have derived := answers.derives_unmatched
          cases follows with
          | matched answer _ => cases answer.deterministic derived
          | failed answer => cases answer.deterministic derived
          | unmatched answer rest =>
              obtain ⟨earlier, gained, orderly⟩ := (follow answer).resolve_left (by simp)
              refine (miss staysOnMiss answers.memory rest).imp_right ?_
              rintro ⟨later, gains, more⟩
              exact ⟨_, gained.trans gains, orderly.append (by simp) more⟩
      | matched nodes stop =>
          have derived := answers.derives
          cases follows with
          | unmatched answer _ => cases answer.deterministic derived
          | failed answer => cases answer.deterministic derived
          | matched answer rest =>
              obtain ⟨earlier, gained, orderly⟩ := (follow answer).resolve_left (by simp)
              cases answer.deterministic derived
              refine (hit nodes stop (stays nodes stop derived.whole_eq) answers.memory
                rest).imp_right ?_
              rintro ⟨later, gains, more⟩
              exact ⟨_, gained.trans gains, orderly.append (by simp) more⟩

/-- The body of a call proceeds in order at a depth that does not settle the call itself. -/
theorem orders_body {text : List Char} {depth : ℕ} {call : Call} {called : Production}
    {cursor : Cursor} {memory : Memory} (calls : setting.CallsOrder room)
    (sound : memory.Sound setting.grammar text)
    (found : setting.grammar.get? call.name = some called) (whole : cursor.whole = text)
    (located : cursor.offset = call.offset)
    (settles : call.Settles setting.grammar text depth) :
    ∃ least < depth, ¬ call.Settles setting.grammar text least ∧
      ∀ active : List Call, (∀ other ∈ active, ¬ other.Settles setting.grammar text least) →
        setting.Orders text least active memory
          ((called.body.script call.name call.parameters cursor).run
            ((setting.invoke room).reply call.name) memory) := by
  obtain ⟨least, less, unsettled, settled⟩ := settles.exists_least
  obtain ⟨outcome, body⟩ := settled.exists_body found whole located
  obtain ⟨asked, follows⟩ := body.follows
  exact ⟨least, less, unsettled, fun active none => orders_run call.name calls
    (called.body.stays_script call.name call.parameters whole) sound follows none⟩

/-- A call proceeds in order when its body does: it settles at the depth of its reference, so it is
not active yet, and its body runs at a depth that does not settle it. -/
theorem orders_conclude {text : List Char} {depth least : ℕ} {active : List Call} {call : Call}
    {memory : Memory} {reply : Reply} (le : least ≤ depth) (fresh : call ∉ active)
    (settles : call.Settles setting.grammar text depth)
    (body : setting.Orders text least (call :: active) (memory.log (.enter call)) reply) :
    setting.Orders text depth active memory (setting.conclude call reply) := by
  obtain ⟨outcome, after⟩ := reply
  rcases body with exceeded | ⟨events, gains, orderly⟩
  · exact .inl (by rw [conclude_fst, exceeded]; rfl)
  · have entered := (Memory.Gains.log memory (.enter call)).trans gains
    right
    cases outcome with
    | failed error => exact ⟨_, entered, orderly.enter le fresh⟩
    | matched nodes stop =>
        exact ⟨_, entered.trans (.log after (.success call stop.offset)),
          orderly.enclose le fresh settles nofun (.inr ⟨stop.offset, rfl⟩)⟩
    | unmatched =>
        refine ⟨_, entered.trans ?_, orderly.enclose le fresh settles nofun (.inl rfl)⟩
        unfold conclude Memory.Gains
        dsimp only
        split <;> rfl

private theorem invoke_orders (setting : Setting) (room : Nat) : setting.CallsOrder room := by
  induction room with
  | zero =>
      intro depth active caller name arguments parameters cursor memory outcome _ _ _
      rw [invoke_eq]
      cases setting.grammar.resolve caller name arguments parameters cursor.offset with
      | error error => exact .inr ⟨[], .refl memory, .nil⟩
      | ok pair =>
          dsimp only
          split
          · exact .inr ⟨_, .log memory (.hit pair.2),
              .single (fun _ => rfl) (fun _ => nofun) (fun _ => nofun)⟩
          · exact .inl rfl
  | succ room induction =>
      intro depth active caller name arguments parameters cursor memory outcome sound derives
        unsettled
      rw [invoke_eq]
      cases resolved : setting.grammar.resolve caller name arguments parameters cursor.offset with
      | error error => exact .inr ⟨[], .refl memory, .nil⟩
      | ok pair =>
          obtain ⟨called, call⟩ := pair
          dsimp only
          split
          · exact .inr ⟨_, .log memory (.hit call),
              .single (fun _ => rfl) (fun _ => nofun) (fun _ => nofun)⟩
          · have settles := derives.settles resolved
            obtain ⟨found, -, bound, -, rfl⟩ := Grammar.resolve_eq_ok_iff.mp resolved
            obtain ⟨least, less, itself, body⟩ :=
              orders_body induction (sound.log _) found rfl rfl settles
            refine orders_conclude less.le (fun member => unsettled _ member settles) settles
              (body _ fun other member => ?_)
            rcases List.mem_cons.mp member with rfl | member
            · exact itself
            · exact fun settled => unsettled other member (settled.mono less.le)

end Setting

namespace Session

variable {session : Session}

/-- A query to a session with a sound memory proceeds in order. -/
theorem Sound.orders (sound : session.Sound) (query : Query) :
    ∃ depth, session.setting.Orders session.text depth [] session.memory
      ((session.ask query).1, (session.ask query).2.memory) := by
  simp only [Session.ask, Session.parse, Setting.parse]
  cases located : Cursor.at? session.text query.offset with
  | none => exact ⟨0, .inr ⟨[], .refl _, .nil⟩⟩
  | some cursor =>
      obtain ⟨whole, -⟩ := Cursor.at?_eq_some_iff.mp located
      have answers := query.node.evaluate_answers
        (Setting.invoke_answers session.setting session.setting.limit) outside query.parameters
        cursor session.memory (whole ▸ sound)
      rcases answers.outcome with exceeded | derives
      · exact ⟨0, .inl exceeded⟩
      · obtain ⟨depth, derives⟩ := derives.exists_depth
        obtain ⟨asked, follows⟩ := derives.follows
        refine ⟨depth, ?_⟩
        dsimp only
        rw [Node.evaluate_eq_run]
        exact Setting.orders_run outside (Setting.invoke_orders _ _)
          (query.node.stays_script outside query.parameters whole) sound follows (by simp)

/-- Left recursion is always caught. In a query to a session with any history no call is entered
while it is active, unless the limit is exceeded; nor is one when a production is to cover a
text. -/
theorem no_active_call_entered (setting : Setting) (text : List Char) :
    (∀ (earlier : List Query) (query : Query),
      let asked := (((fresh setting text).after earlier).takeEvents.2).ask query
      asked.1 = .failed (.recursionLimitExceeded setting.limit) ∨
        ∀ before call later, asked.2.takeEvents.1 = before ++ .enter call :: later →
          call ∉ openCalls before) ∧
    ∀ root : String,
      (setting.parseAll root text).1 = .error (.recursionLimitExceeded setting.limit) ∨
        ∀ before call later, (setting.parseAll root text).2 = before ++ .enter call :: later →
          call ∉ openCalls before := by
  -- The events of a run that starts with none are the ones by which its memory grows.
  have orderly : ∀ {depth memory outcome after}, memory.events = [] →
      setting.Orders text depth [] memory (outcome, after) →
      outcome = .failed (.recursionLimitExceeded setting.limit) ∨
        ∀ before call later, after.events.reverse = before ++ .enter call :: later →
          call ∉ openCalls before := by
    intro depth memory outcome after none orders
    refine orders.imp_right ?_
    rintro ⟨events, gains, orderly⟩ before call later split
    have all : after.events.reverse = events := by
      rw [gains, none, List.append_nil, List.reverse_reverse]
    have never : NeverReenters [] (before ++ .enter call :: later) :=
      split ▸ all ▸ orderly.enters
    exact never.notMem_openCalls
  refine ⟨fun earlier query => ?_, fun root => ?_⟩
  · have sound : ((fresh setting text).after earlier).takeEvents.2.Sound :=
      (sound_fresh setting text).after earlier
    obtain ⟨depth, orders⟩ := sound.orders query
    have same : ((fresh setting text).after earlier).takeEvents.2.setting = setting :=
      setting_after earlier
    have place : ((fresh setting text).after earlier).takeEvents.2.text = text :=
      text_after earlier
    rw [same, place] at orders
    exact orderly rfl orders
  · have sound : Memory.fresh.Sound setting.grammar text := Memory.sound_fresh
    have answers := setting.invoke_answers setting.limit outside root [] .empty (.start text)
      .fresh sound
    rcases answers.outcome with exceeded | derives
    · left
      simp only [Setting.parseAll, exceeded]
    · obtain ⟨depth, derives⟩ := derives.exists_depth
      have orders := setting.invoke_orders setting.limit depth [] outside root [] .empty
        (.start text) .fresh _ sound derives (by simp)
      refine (orderly rfl orders).imp_left fun exceeded => ?_
      simp only [Setting.parseAll, exceeded]

end Session

/-! ### Remembered failures and their events -/

/-- The calls that are known to fail are those whose failure was reported, which it was once, and
only such calls were skipped. -/
structure Memory.Reported (memory : Memory) : Prop where
  once : ∀ call, memory.events.count (.failure call) =
    if memory.failures.contains call then 1 else 0
  hits : ∀ call later before, memory.events = later ++ .hit call :: before →
    .failure call ∈ before

namespace Memory

variable {memory : Memory}

private theorem reported_fresh : fresh.Reported := ⟨by simp [fresh], by simp [fresh]⟩

namespace Reported

private theorem mem_iff (reported : memory.Reported) (call : Call) :
    .failure call ∈ memory.events ↔ memory.failures.contains call = true := by
  rw [← List.count_pos_iff, reported.once]
  split <;> simp_all

/-- An event keeps skips behind failures if it is itself no skip or behind its failure. -/
theorem hits_cons (reported : memory.Reported) {event : Event}
    (known : ∀ call, event = .hit call → .failure call ∈ memory.events)
    (call : Call) (later before : List Event)
    (split : event :: memory.events = later ++ .hit call :: before) : .failure call ∈ before := by
  cases later with
  | nil =>
      obtain ⟨same, rfl⟩ := List.cons.inj split
      exact known call same
  | cons first later =>
      obtain ⟨-, rest⟩ := List.cons.inj split
      exact reported.hits call later before rest

private theorem log (reported : memory.Reported) {event : Event}
    (fails : ∀ call, event ≠ .failure call)
    (known : ∀ call, event = .hit call → memory.failures.contains call = true) :
    (memory.log event).Reported := by
  refine ⟨fun call => ?_, reported.hits_cons fun call same =>
    (reported.mem_iff call).mpr (known call same)⟩
  rw [Memory.log, List.count_cons_of_ne (fails call)]
  exact reported.once call

/-- A failure is reported when it is remembered, of a call that was not known to fail. -/
theorem fail (reported : memory.Reported) {call : Call}
    (unknown : memory.failures.contains call = false) :
    ((memory.log (.failure call)).remember call).Reported := by
  refine ⟨fun other => ?_, reported.hits_cons fun _ => nofun⟩
  have once := reported.once other
  simp only [remember, Memory.log, Std.HashSet.contains_insert, List.count_cons, once]
  by_cases same : call = other
  · subst same
    simp [unknown]
  · simp [same]

end Reported

end Memory

namespace Setting

variable {setting : Setting} {room : Nat}

/-- Calls from a memory that reports what it remembers lead to such a memory. -/
def CallsReport (setting : Setting) (room : Nat) : Prop :=
  ∀ (caller name : String) (arguments : List Binding) (parameters : Parameters)
    (cursor : Cursor) (memory : Memory), memory.Sound setting.grammar cursor.whole →
    memory.Reported →
    (setting.invoke room caller name arguments parameters cursor memory).2.Reported

private theorem reported_run (production : String) {text : List Char} {script : Script}
    {memory : Memory} (calls : setting.CallsReport room) (stays : script.Stays text)
    (sound : memory.Sound setting.grammar text) (reported : memory.Reported) :
    (script.run ((setting.invoke room).reply production) memory).2.Reported := by
  induction script generalizing memory with
  | done outcome => exact reported
  | note name offset later induction =>
      exact induction stays (sound.log _) (reported.log (by simp) (by simp))
  | call ask onMatch onMiss hit miss =>
      obtain ⟨rfl, stays, staysOnMiss⟩ := stays
      have answers := setting.invoke_answers room production ask.name ask.arguments ask.parameters
        ask.cursor memory sound
      have kept := calls production ask.name ask.arguments ask.parameters ask.cursor memory sound
        reported
      change setting.Answers room production _ _ _
        ((setting.invoke room).reply production ask memory) at answers
      change ((setting.invoke room).reply production ask memory).2.Reported at kept
      rw [Script.run]
      cases reply : (setting.invoke room).reply production ask memory with
      | mk result after =>
      rw [reply] at answers kept
      cases result with
      | failed error => exact kept
      | unmatched => exact miss staysOnMiss answers.memory kept
      | matched nodes stop =>
          exact hit nodes stop (stays nodes stop answers.derives.whole_eq) answers.memory kept

/-- While the body of a call is evaluated to no match, its own failure is not reported. -/
theorem unknown_of_body {call : Call} {called : Production} {cursor : Cursor}
    {memory after : Memory} (sound : memory.Sound setting.grammar cursor.whole)
    (reported : memory.Reported) (kept : after.Reported)
    (unknown : memory.failures.contains call = false)
    (found : setting.grammar.get? call.name = some called)
    (located : cursor.offset = call.offset)
    (reply : (called.body.script call.name call.parameters cursor).run
      ((setting.invoke room).reply call.name) (memory.log (.enter call)) = (.unmatched, after)) :
    after.failures.contains call = false := by
  have answers := called.body.evaluate_answers (setting.invoke_answers room) call.name
    call.parameters cursor (memory.log (.enter call)) (sound.log _)
  rw [Node.evaluate_eq_run, reply] at answers
  obtain ⟨depth, body⟩ := answers.derives_unmatched.exists_depth
  have settles : call.Settles setting.grammar cursor.whole (depth + 1) :=
    ⟨called, cursor, _, depth, found, rfl, located, by simp, body⟩
  obtain ⟨least, -, unsettled, orders⟩ := orders_body (setting.invoke_orders room)
    (sound.log (.enter call)) found rfl located settles
  have ordered := orders [] (by simp)
  rw [reply] at ordered
  obtain ⟨events, gains, orderly⟩ := ordered.resolve_left nofun
  rw [← Bool.not_eq_true, ← kept.mem_iff, gains]
  simp only [List.mem_append, List.mem_reverse, Memory.log, List.mem_cons, reduceCtorEq,
    reported.mem_iff, unknown, Bool.false_eq_true, or_false]
  exact fun member => unsettled (orderly.failures call member)

private theorem invoke_reports (cached : setting.cached = true) (room : Nat) :
    setting.CallsReport room := by
  induction room with
  | zero =>
      intro caller name arguments parameters cursor memory sound reported
      rw [invoke_eq]
      split
      · exact reported
      · split
        · rename_i known
          refine reported.log (by simp) fun call same => ?_
          cases same
          exact (Bool.and_eq_true _ _ ▸ known).2
        · exact reported
  | succ room induction =>
      intro caller name arguments parameters cursor memory sound reported
      rw [invoke_eq]
      cases resolved : setting.grammar.resolve caller name arguments parameters cursor.offset with
      | error error => exact reported
      | ok pair =>
          obtain ⟨called, call⟩ := pair
          dsimp only
          split
          · rename_i known
            refine reported.log (by simp) fun call same => ?_
            cases same
            exact (Bool.and_eq_true _ _ ▸ known).2
          · rename_i unknown
            obtain ⟨found, -, bound, -, rfl⟩ := Grammar.resolve_eq_ok_iff.mp resolved
            have kept := reported_run name induction
              (called.body.stays_script name bound (Eq.refl cursor.whole))
              (sound.log (.enter ⟨name, bound, cursor.offset⟩))
              (reported.log (by simp) (by simp))
            simp only [cached, Bool.true_and, Bool.not_eq_true] at unknown
            cases reply : (called.body.script name bound cursor).run
              ((setting.invoke room).reply name)
              (memory.log (.enter ⟨name, bound, cursor.offset⟩)) with
            | mk result after =>
            rw [reply] at kept
            cases result with
            | failed error => exact kept
            | matched nodes stop => exact kept.log (by simp) (by simp)
            | unmatched =>
                have still := unknown_of_body sound reported kept unknown found rfl reply
                simp only [conclude, cached, if_true]
                exact kept.fail still

end Setting

namespace Session

private theorem reported_after (session : Session) (cached : session.setting.cached = true)
    (sound : session.Sound) (reported : session.memory.Reported) (queries : List Query) :
    (session.after queries).memory.Reported := by
  induction queries generalizing session with
  | nil => exact reported
  | cons query queries induction =>
      refine induction _ cached (sound.ask query) ?_
      simp only [ask, parse, Setting.parse]
      cases located : Cursor.at? session.text query.offset with
      | none => exact reported
      | some cursor =>
          obtain ⟨whole, -⟩ := Cursor.at?_eq_some_iff.mp located
          dsimp only
          rw [Node.evaluate_eq_run]
          exact Setting.reported_run outside (Setting.invoke_reports cached _)
            (query.node.stays_script outside query.parameters whole) sound reported

/-- Each failure is derived once: over all queries to a session with a memory of failures, no
failure is reported twice, and no call is skipped before its failure is reported. -/
theorem failures_derived_once (grammar : Grammar) (limit : Nat) (text : List Char)
    (queries : List Query) :
    let events := ((fresh ⟨grammar, true, limit⟩ text).after queries).takeEvents.1
    (∀ call, events.count (.failure call) ≤ 1) ∧
      ∀ before call later, events = before ++ .hit call :: later → .failure call ∈ before := by
  have reported := (fresh ⟨grammar, true, limit⟩ text).reported_after rfl (sound_fresh _ text)
    Memory.reported_fresh queries
  refine ⟨fun call => ?_, fun before call later split => ?_⟩
  · rw [takeEvents, List.count_reverse, reported.once]
    split <;> simp
  · rw [takeEvents, List.reverse_eq_iff] at split
    have earlier := reported.hits call later.reverse before.reverse (by simpa using split)
    exact List.mem_reverse.mp earlier

end Session

end ParametricGrammar
