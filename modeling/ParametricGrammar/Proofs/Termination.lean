import ParametricGrammar.Proofs.References
import ParametricGrammar.Proofs.Repetitions
import ParametricGrammar.Proofs.Scripts
/-!
# Evaluation ends

Evaluation with fuel runs without any promise to end: it looks calls up by name and compares the
number of active ones with the limit, and it repeats until an upper bound, a miss or an empty match
stops it. Only the fuel, which every nested evaluation and every turn of a repetition takes from,
makes it a definition.

The fuel never decides a reply. With too little of it there is none, and from an amount on that the
limit, the heights of the expressions and the length of the text give, the reply is that of
evaluation. What carries the proof is that each call uses up a part of the limit, each nested
expression is lower than what it is a part of, and each turn of a repetition that goes on without an
upper bound moves ahead in the text.
-/

namespace ParametricGrammar

/-! ### Heights of expressions -/

namespace Node

mutual

/-- The number of expressions on the longest way down an expression. -/
def height : Node → Nat
  | .empty | .startOfLine | .endOfInput | .literal _ | .chars _ | .reference _ _ => 1
  | .sequence children | .first children => heightOfAll children + 1
  | .repeated child _ _ | .lookahead child _ | .lookbehind child
  | .detectIndentation _ child => child.height + 1
  | .cases arms => heightOfArms arms + 1

/-- The height of the highest of some expressions. -/
def heightOfAll : List Node → Nat
  | [] => 0
  | node :: rest => max node.height (heightOfAll rest)

/-- The height of the highest body of some cases. -/
def heightOfArms : List (Parameters × Node) → Nat
  | [] => 0
  | (_, body) :: rest => max body.height (heightOfArms rest)

end

private theorem height_le_of_mem {node : Node} {nodes : List Node} (member : node ∈ nodes) :
    node.height ≤ heightOfAll nodes := by
  induction nodes with
  | nil => cases member
  | cons first nodes induction =>
      rw [heightOfAll]
      rcases List.mem_cons.mp member with rfl | member
      · exact le_max_left _ _
      · exact le_max_of_le_right (induction member)

private theorem height_le_of_mem_arms {pattern : Parameters} {body : Node}
    {arms : List (Parameters × Node)} (member : (pattern, body) ∈ arms) :
    body.height ≤ heightOfArms arms := by
  induction arms with
  | nil => cases member
  | cons first arms induction =>
      rw [heightOfArms]
      rcases List.mem_cons.mp member with rfl | member
      · exact le_max_left _ _
      · exact le_max_of_le_right (induction member)

end Node

/-- The height of the highest body in a grammar. -/
def Grammar.height (grammar : Grammar) : Nat :=
  Node.heightOfAll (grammar.entries.map fun entry => entry.2.body)

private theorem Grammar.height_le_of_get? {grammar : Grammar} {name : String}
    {production : Production} (found : grammar.get? name = some production) :
    production.body.height ≤ grammar.height :=
  Node.height_le_of_mem (List.mem_map.mpr ⟨_, mem_entries_of_get? found, rfl⟩)

/-! ### Evaluation with fuel -/

/-- Evaluation of something at a place that gives no reply when it runs out of fuel. -/
abbrev FuelledStep := Cursor → Memory → Option Reply

namespace Fuelled

/-- Goes on behind a match or a miss. An error ends the run. -/
def proceed (reply : Option Reply) (onMatch : List Tree → FuelledStep)
    (onMiss : Memory → Option Reply) : Option Reply :=
  match reply with
  | none => none
  | some (.matched nodes stop, memory) => onMatch nodes stop memory
  | some (.unmatched, memory) => onMiss memory
  | some (.failed error, memory) => some (.failed error, memory)

/-- Evaluates expressions one after the other. -/
def inOrder (step : Node → FuelledStep) : List Node → FuelledStep
  | [], cursor, memory => some (.matched [] cursor, memory)
  | node :: rest, cursor, memory =>
      proceed (step node cursor memory)
        (fun nodes stop memory =>
          (inOrder step rest stop memory).map fun reply => (reply.1.prepend nodes, reply.2))
        (fun memory => some (.unmatched, memory))

/-- Evaluates alternatives up to the first that matches. -/
def firstOf (step : Node → FuelledStep) : List Node → FuelledStep
  | [], _, memory => some (.unmatched, memory)
  | node :: rest, cursor, memory =>
      proceed (step node cursor memory)
        (fun nodes stop memory => some (.matched nodes stop, memory))
        (fun memory => firstOf step rest cursor memory)

/-- Repeats a step until an upper bound is met, it does not match or, without an upper bound, it
matches the empty text. -/
def loop (production : String) (step : FuelledStep) (least : Nat) (most : Option Nat) :
    Nat → Nat → List Tree → FuelledStep
  | 0, _, _, _, _ => none
  | fuel + 1, count, nodes, cursor, memory =>
      if most.any (· ≤ count) then some (closeRepetition least count nodes cursor, memory)
      else
        proceed (step cursor memory)
          (fun more stop memory =>
            if most.isNone && stop.offset = cursor.offset then
              some (closeRepetition least (count + 1) (more.reverseAux nodes) stop,
                memory.log (.zeroWidth production stop.offset))
            else
              loop production step least most fuel (count + 1) (more.reverseAux nodes) stop memory)
          (fun memory => some (closeRepetition least count nodes cursor, memory))

end Fuelled

namespace Setting

open Fuelled in
/-- Evaluates an expression in the body of a production while a number of calls is active. -/
def evaluateWithin (setting : Setting) :
    (fuel : Nat) → (production : String) → (active : Nat) → Node → Parameters → FuelledStep
  | 0, _, _, _, _, _, _ => none
  | fuel + 1, production, active, node, parameters, cursor, memory =>
      match node with
      | .empty => some (.matched [] cursor, memory)
      | .startOfLine => some (.check cursor.startsLine cursor, memory)
      | .endOfInput => some (.check cursor.rest.isEmpty cursor, memory)
      | .literal text =>
          match cursor.skip? text.toList with
          | some stop => some (.matched [] stop, memory)
          | none => some (.unmatched, memory)
      | .chars set =>
          match cursor.next? with
          | some (char, stop) => some (.check (set.contains char) stop, memory)
          | none => some (.unmatched, memory)
      | .reference name arguments =>
          match setting.grammar.resolve production name arguments parameters cursor.offset with
          | .error error => some (.failed error, memory)
          | .ok (called, call) =>
              if setting.cached && memory.failures.contains call then
                some (.unmatched, memory.log (.hit call))
              else if setting.limit ≤ active then
                some (.failed (.recursionLimitExceeded setting.limit), memory)
              else
                (setting.evaluateWithin fuel call.name (active + 1) called.body call.parameters
                  cursor (memory.log (.enter call))).map (setting.conclude call)
      | .sequence children =>
          inOrder (fun child => setting.evaluateWithin fuel production active child parameters)
            children cursor memory
      | .first children =>
          firstOf (fun child => setting.evaluateWithin fuel production active child parameters)
            children cursor memory
      | .repeated child minimum maximum =>
          match minimum.resolve parameters, maximum.mapM (Bound.resolve parameters) with
          | .error cause, _ | .ok _, .error cause =>
              some (.failed (.parameter production cause), memory)
          | .ok least, .ok most =>
              loop production (setting.evaluateWithin fuel production active child parameters)
                least most fuel 0 [] cursor memory
      | .lookahead child positive =>
          proceed (setting.evaluateWithin fuel production active child parameters cursor memory)
            (fun _ _ memory => some (.check positive cursor, memory))
            (fun memory => some (.check (!positive) cursor, memory))
      | .lookbehind child =>
          match cursor.previous? with
          | none => some (.unmatched, memory)
          | some before =>
              proceed (setting.evaluateWithin fuel production active child parameters before memory)
                (fun _ stop memory => some (.check (stop.offset = cursor.offset) cursor, memory))
                (fun memory => some (.unmatched, memory))
      | .detectIndentation minimum child =>
          match minimum.resolveInt parameters with
          | .error cause => some (.failed (.parameter production cause), memory)
          | .ok least =>
              let detected := Int32.ofNat (min cursor.spacesAhead maxIndentation)
              if detected < least then some (.unmatched, memory)
              else
                setting.evaluateWithin fuel production active child
                  { parameters with m := some detected } cursor memory
      | .cases arms =>
          match arms.find? fun arm => parameters.satisfies arm.1 with
          | some (_, body) =>
              setting.evaluateWithin fuel production active body parameters cursor memory
          | none => some (.failed (.uncoveredContext production parameters), memory)

/-- Evaluates an expression at a byte offset with fuel. -/
def parseWithin (setting : Setting) (fuel : Nat) (text : List Char) (offset : Nat)
    (parameters : Parameters) (node : Node) (memory : Memory) : Option Reply :=
  match Cursor.at? text offset with
  | some cursor => setting.evaluateWithin fuel outside 0 node parameters cursor memory
  | none => some (.unmatched, memory)

end Setting

/-! ### Evaluation as going on behind replies -/

/-- Goes on behind a match or a miss. An error ends the run. -/
def Reply.proceed (reply : Reply) (onMatch : List Tree → Step) (onMiss : Memory → Reply) : Reply :=
  match reply with
  | (.matched nodes stop, memory) => onMatch nodes stop memory
  | (.unmatched, memory) => onMiss memory
  | (.failed error, memory) => (.failed error, memory)

private theorem repetition_succ (production : String) (step : Step) (minimum : Nat)
    (unbounded : Bool) (budget count : Nat) (nodes : List Tree) (cursor : Cursor)
    (memory : Memory) :
    repetition production step minimum unbounded (budget + 1) count nodes cursor memory =
      Reply.proceed (step cursor memory)
        (fun more stop memory =>
          if unbounded && stop.offset = cursor.offset then
            (closeRepetition minimum (count + 1) (more.reverseAux nodes) stop,
              memory.log (.zeroWidth production stop.offset))
          else
            repetition production step minimum unbounded budget (count + 1)
              (more.reverseAux nodes) stop memory)
        (fun memory => (closeRepetition minimum count nodes cursor, memory)) := by
  rw [repetition]
  obtain ⟨outcome, after⟩ := step cursor memory
  cases outcome <;> rfl

namespace Node

variable {production : String} {invoke : Invoke} {parameters : Parameters} {cursor : Cursor}
  {memory : Memory}

private theorem evaluateAll_proceed (node : Node) (rest : List Node) :
    evaluateAll production invoke (node :: rest) parameters cursor memory =
      Reply.proceed (evaluate production invoke node parameters cursor memory)
        (fun nodes stop memory =>
          ((evaluateAll production invoke rest parameters stop memory).1.prepend nodes,
            (evaluateAll production invoke rest parameters stop memory).2))
        (fun memory => (.unmatched, memory)) := by
  match reply : evaluate production invoke node parameters cursor memory with
  | (.matched nodes stop, after) => exact evaluateAll_matched reply
  | (.unmatched, after) => rw [evaluateAll, reply]; rfl
  | (.failed error, after) => rw [evaluateAll, reply]; rfl

private theorem evaluateFirst_proceed (node : Node) (rest : List Node) :
    evaluateFirst production invoke (node :: rest) parameters cursor memory =
      Reply.proceed (evaluate production invoke node parameters cursor memory)
        (fun nodes stop memory => (.matched nodes stop, memory))
        (fun memory => evaluateFirst production invoke rest parameters cursor memory) := by
  rw [evaluateFirst]
  match evaluate production invoke node parameters cursor memory with
  | (.matched nodes stop, after) => rfl
  | (.unmatched, after) => rfl
  | (.failed error, after) => rfl

private theorem evaluate_lookahead (child : Node) (positive : Bool) :
    evaluate production invoke (.lookahead child positive) parameters cursor memory =
      Reply.proceed (evaluate production invoke child parameters cursor memory)
        (fun _ _ memory => (.check positive cursor, memory))
        (fun memory => (.check (!positive) cursor, memory)) := by
  rw [evaluate]
  match evaluate production invoke child parameters cursor memory with
  | (.matched nodes stop, after) => rfl
  | (.unmatched, after) => cases positive <;> rfl
  | (.failed error, after) => rfl

private theorem evaluate_lookbehind {before : Cursor} (child : Node)
    (previous : cursor.previous? = some before) :
    evaluate production invoke (.lookbehind child) parameters cursor memory =
      Reply.proceed (evaluate production invoke child parameters before memory)
        (fun _ stop memory => (.check (stop.offset = cursor.offset) cursor, memory))
        (fun memory => (.unmatched, memory)) := by
  rw [evaluate, previous]
  dsimp only
  match evaluate production invoke child parameters before memory with
  | (.matched nodes stop, after) =>
      by_cases same : stop.offset = cursor.offset <;> simp [Reply.proceed, same]
  | (.unmatched, after) => rfl
  | (.failed error, after) => rfl

private theorem evaluate_repeated (child : Node) (minimum : Bound) (maximum : Option Bound) :
    evaluate production invoke (.repeated child minimum maximum) parameters cursor memory =
      match minimum.resolve parameters, maximum.mapM (Bound.resolve parameters) with
      | .error cause, _ | .ok _, .error cause => (.failed (.parameter production cause), memory)
      | .ok least, .ok most =>
          repetition production (evaluate production invoke child parameters) least most.isNone
            (most.getD (cursor.rest.length + 1)) 0 [] cursor memory := by
  rw [evaluate]
  cases minimum.resolve parameters with
  | error cause => rfl
  | ok least =>
      cases maximum with
      | none => rfl
      | some bound =>
          rw [Option.mapM_some]
          dsimp only
          cases bound.resolve parameters <;> rfl

theorem evaluateCases_eq (arms : List (Parameters × Node)) :
    evaluateCases production invoke arms parameters cursor memory =
      match arms.find? fun arm => parameters.satisfies arm.1 with
      | some (_, body) => evaluate production invoke body parameters cursor memory
      | none => (.failed (.uncoveredContext production parameters), memory) := by
  induction arms with
  | nil => rfl
  | cons arm arms induction =>
      obtain ⟨pattern, body⟩ := arm
      rw [evaluateCases, List.find?_cons]
      cases parameters.satisfies pattern with
      | true => rfl
      | false => exact induction

end Node

/-! ### Replies with and without fuel -/

namespace Fuelled

/-- With fuel there is the given reply, or none where the fuel is not enough. -/
def Agrees (enough : Prop) (fuelled : Option Reply) (reply : Reply) : Prop :=
  fuelled = some reply ∨ fuelled = none ∧ ¬ enough

namespace Agrees

variable {enough : Prop} {fuelled : Option Reply} {reply : Reply}

private theorem same (reply : Reply) : Agrees enough (some reply) reply := .inl rfl

theorem imp {other : Prop} (agrees : Agrees enough fuelled reply) (weaker : other → enough) :
    Agrees other fuelled reply := by
  rcases agrees with replies | ⟨ends, short⟩
  · exact .inl replies
  · exact .inr ⟨ends, mt weaker short⟩

private theorem map (agrees : Agrees enough fuelled reply) (change : Reply → Reply) :
    Agrees enough (fuelled.map change) (change reply) := by
  rcases agrees with rfl | ⟨rfl, short⟩
  · exact .inl rfl
  · exact .inr ⟨rfl, short⟩

private theorem proceed {onMatch : List Tree → FuelledStep} {onMiss : Memory → Option Reply}
    {onMatch' : List Tree → Step} {onMiss' : Memory → Reply}
    (agrees : Agrees enough fuelled reply)
    (matched : ∀ nodes stop memory, reply = (.matched nodes stop, memory) →
      Agrees enough (onMatch nodes stop memory) (onMatch' nodes stop memory))
    (missed : ∀ memory, reply = (.unmatched, memory) →
      Agrees enough (onMiss memory) (onMiss' memory)) :
    Agrees enough (Fuelled.proceed fuelled onMatch onMiss)
      (Reply.proceed reply onMatch' onMiss') := by
  rcases agrees with rfl | ⟨rfl, short⟩
  · match reply with
    | (.matched nodes stop, memory) => exact matched nodes stop memory rfl
    | (.unmatched, memory) => exact missed memory rfl
    | (.failed error, memory) => exact same _
  · exact .inr ⟨rfl, short⟩

end Agrees

end Fuelled

namespace Setting

open Fuelled

/-- A step with fuel agrees with a step from all sound memories, at all places of a text. -/
def StepAgrees (setting : Setting) (text : List Char) (enough : Prop) (fuelled : FuelledStep)
    (step : Step) : Prop :=
  ∀ (cursor : Cursor) (memory : Memory), cursor.whole = text →
    memory.Sound setting.grammar text → Agrees enough (fuelled cursor memory) (step cursor memory)

variable {setting : Setting} {text : List Char} {enough : Prop} {room : Nat} {production : String}
  {parameters : Parameters}

/-- Behind a match the place is one of the same text, with less of it ahead if the match moves, and
what is remembered is sound. -/
theorem behind_match {node : Node} {cursor stop : Cursor} {memory after : Memory}
    {nodes : List Tree} (whole : cursor.whole = text) (sound : memory.Sound setting.grammar text)
    (reply : node.evaluate production (setting.invoke room) parameters cursor memory =
      (.matched nodes stop, after)) :
    stop.whole = text ∧ after.Sound setting.grammar text ∧
      (stop.offset ≠ cursor.offset → stop.rest.length < cursor.rest.length) := by
  subst whole
  have answers := node.evaluate_answers (invoke_answers setting room) production parameters cursor
    memory sound
  rw [reply] at answers
  refine ⟨answers.derives.whole_eq, answers.memory, fun moves => ?_⟩
  apply answers.derives.length_rest_lt
  rintro rfl
  exact moves rfl

/-- A miss leaves a sound memory. -/
theorem behind_miss {node : Node} {cursor : Cursor} {memory after : Memory}
    (whole : cursor.whole = text) (sound : memory.Sound setting.grammar text)
    (reply : node.evaluate production (setting.invoke room) parameters cursor memory =
      (.unmatched, after)) :
    after.Sound setting.grammar text := by
  subst whole
  have answers := node.evaluate_answers (invoke_answers setting room) production parameters cursor
    memory sound
  rw [reply] at answers
  exact answers.memory

private theorem inOrder_agrees {fuelled : Node → FuelledStep} {children : List Node}
    (each : ∀ child ∈ children, setting.StepAgrees text enough (fuelled child)
      (child.evaluate production (setting.invoke room) parameters)) :
    setting.StepAgrees text enough (inOrder fuelled children)
      (Node.evaluateAll production (setting.invoke room) children parameters) := by
  induction children with
  | nil => exact fun cursor memory _ _ => .same _
  | cons child children induction =>
      intro cursor memory whole sound
      have first := each child List.mem_cons_self cursor memory whole sound
      have rest := induction fun other member => each other (List.mem_cons_of_mem child member)
      rw [inOrder, Node.evaluateAll_proceed]
      apply first.proceed
      · intro nodes stop after reply
        obtain ⟨wholeStop, soundAfter, -⟩ := behind_match whole sound reply
        exact (rest stop after wholeStop soundAfter).map fun reply =>
          (reply.1.prepend nodes, reply.2)
      · exact fun after _ => .same _

private theorem firstOf_agrees {fuelled : Node → FuelledStep} {children : List Node}
    (each : ∀ child ∈ children, setting.StepAgrees text enough (fuelled child)
      (child.evaluate production (setting.invoke room) parameters)) :
    setting.StepAgrees text enough (firstOf fuelled children)
      (Node.evaluateFirst production (setting.invoke room) children parameters) := by
  induction children with
  | nil => exact fun cursor memory _ _ => .same _
  | cons child children induction =>
      intro cursor memory whole sound
      have first := each child List.mem_cons_self cursor memory whole sound
      have rest := induction fun other member => each other (List.mem_cons_of_mem child member)
      rw [firstOf, Node.evaluateFirst_proceed]
      apply first.proceed
      · exact fun nodes stop after _ => .same _
      · intro after reply
        exact rest cursor after whole (behind_miss whole sound reply)

/-- The loop of a repetition agrees with a count of the turns that are left: those up to the upper
bound, or without one more than there are characters ahead. -/
theorem loop_agrees {child : Node} {fuelled : FuelledStep}
    (steps : setting.StepAgrees text enough fuelled
      (child.evaluate production (setting.invoke room) parameters))
    (least : Nat) {most : Option Nat} {fuel budget count : Nat} {nodes : List Tree}
    {cursor : Cursor} {memory : Memory} (whole : cursor.whole = text)
    (sound : memory.Sound setting.grammar text)
    (left : ∀ bound, most = some bound → bound = count + budget)
    (ahead : most = none → cursor.rest.length < budget) :
    Agrees (enough ∧ budget < fuel)
      (loop production fuelled least most fuel count nodes cursor memory)
      (repetition production (child.evaluate production (setting.invoke room) parameters) least
        most.isNone budget count nodes cursor memory) := by
  induction fuel generalizing budget count nodes cursor memory with
  | zero => exact .inr ⟨rfl, by simp⟩
  | succ fuel induction =>
      cases budget with
      | zero =>
          cases most with
          | none => exact absurd (ahead rfl) (Nat.not_lt_zero _)
          | some bound =>
              obtain rfl := left bound rfl
              rw [loop, if_pos (by simp), repetition]
              exact .same _
      | succ budget =>
          have goes : ¬ most.any (· ≤ count) = true := by
            cases most with
            | none => simp
            | some bound =>
                obtain rfl := left bound rfl
                simp
          rw [loop, if_neg goes, repetition_succ]
          apply ((steps cursor memory whole sound).imp And.left).proceed
          · intro more stop after reply
            obtain ⟨wholeStop, soundAfter, shorter⟩ := behind_match whole sound reply
            by_cases still : (most.isNone && decide (stop.offset = cursor.offset)) = true
            · rw [if_pos still, if_pos still]
              exact .same _
            · rw [if_neg still, if_neg still]
              have moves : most = none → stop.offset ≠ cursor.offset := by
                rintro rfl
                simpa using still
              refine Agrees.imp (induction wholeStop soundAfter ?_ ?_) ?_
              · intro bound same
                have := left bound same
                omega
              · intro unbounded
                have := ahead unbounded
                have := shorter (moves unbounded)
                omega
              · exact And.imp_right Nat.lt_of_succ_lt_succ
          · exact fun after _ => .same _

end Setting

/-- Fuel for an expression with room for some calls: the longest way down through bodies that these
calls enter, and the turns of a repetition. -/
def Grammar.fuel (grammar : Grammar) (room : Nat) (text : List Char) (node : Node) : Nat :=
  node.height + room * grammar.height + text.length + 2 ^ 32

namespace Setting

open Fuelled

variable {setting : Setting} {text : List Char}

/-- The fuel for a repetition is enough for its turns. -/
theorem turns_lt_of_fuel {grammar : Grammar} {room fuel : Nat} {child : Node} {minimum : Bound}
    {maximum : Option Bound} {most : Option Nat} {cursor : Cursor} (whole : cursor.whole = text)
    (bounded : ∀ bound, most = some bound → bound < 2 ^ 32)
    (enough : grammar.fuel room text (.repeated child minimum maximum) ≤ fuel + 1) :
    most.getD (cursor.rest.length + 1) < fuel := by
  have ahead : cursor.rest.length ≤ text.length := by
    rw [← whole, Cursor.whole, List.length_append]
    exact Nat.le_add_left _ _
  unfold Grammar.fuel Node.height at enough
  cases most with
  | none =>
      rw [Option.getD_none]
      omega
  | some bound =>
      have less := bounded bound rfl
      rw [Option.getD_some]
      omega

/-- A call agrees if bodies do: both stop it where the limit is met, and behind the limit there is
less room for the body. -/
theorem call_agrees {fuel active room : Nat} {production : String}
    (spent : active + room = setting.limit)
    (bodies : ∀ {less : Nat}, active + 1 + less = setting.limit →
      ∀ (name : String) (body : Node) (parameters : Parameters),
        setting.StepAgrees text (setting.grammar.fuel less text body ≤ fuel)
          (setting.evaluateWithin fuel name (active + 1) body parameters)
          (body.evaluate name (setting.invoke less) parameters))
    (name : String) (arguments : List Binding) (parameters : Parameters) :
    setting.StepAgrees text (setting.grammar.fuel room text (.reference name arguments) ≤ fuel + 1)
      (setting.evaluateWithin (fuel + 1) production active (.reference name arguments) parameters)
      ((Node.reference name arguments).evaluate production (setting.invoke room) parameters) := by
  intro cursor memory whole sound
  rw [evaluateWithin, Node.evaluate, invoke_eq]
  cases resolved : setting.grammar.resolve production name arguments parameters cursor.offset with
  | error error => exact .same _
  | ok pair =>
      obtain ⟨called, call⟩ := pair
      dsimp only
      split
      · exact .same _
      · cases room with
        | zero =>
            rw [if_pos (by omega)]
            exact .same _
        | succ room =>
            obtain ⟨found, -⟩ := Grammar.resolve_eq_ok_iff.mp resolved
            have lower := Grammar.height_le_of_get? found
            have entered : active + 1 + room = setting.limit := by omega
            dsimp only
            rw [if_neg (by omega), ← Node.evaluate_eq_run]
            have body := bodies entered call.name called.body call.parameters cursor
              (memory.log (.enter call)) whole (sound.log _)
            refine (body.map (setting.conclude call)).imp fun enough => ?_
            simp only [Grammar.fuel, Node.height, Nat.succ_mul] at enough ⊢
            omega

/-- Evaluation with fuel agrees with evaluation, and the fuel for an expression is enough. -/
theorem evaluateWithin_agrees (fuel : Nat) {production : String} {active room : Nat}
    (spent : active + room = setting.limit) (node : Node) (parameters : Parameters) :
    setting.StepAgrees text (setting.grammar.fuel room text node ≤ fuel)
      (setting.evaluateWithin fuel production active node parameters)
      (node.evaluate production (setting.invoke room) parameters) := by
  induction fuel generalizing production active room node parameters with
  | zero => exact fun cursor memory _ _ => .inr ⟨rfl, by simp [Grammar.fuel]⟩
  | succ fuel induction =>
      have inner : ∀ child : Node, child.height < node.height → ∀ parameters,
          setting.StepAgrees text (setting.grammar.fuel room text node ≤ fuel + 1)
            (setting.evaluateWithin fuel production active child parameters)
            (child.evaluate production (setting.invoke room) parameters) := by
        intro child lower parameters cursor memory whole sound
        refine (induction spent child parameters cursor memory whole sound).imp fun enough => ?_
        unfold Grammar.fuel at enough ⊢
        omega
      intro cursor memory whole sound
      cases node with
      | empty => exact .same _
      | startOfLine => exact .same _
      | endOfInput => exact .same _
      | literal spelling =>
          rw [evaluateWithin, Node.evaluate]
          cases cursor.skip? spelling.toList <;> exact .same _
      | chars set =>
          rw [evaluateWithin, Node.evaluate]
          cases cursor.next? <;> exact .same _
      | reference name arguments =>
          exact call_agrees spent
            (fun entered name body parameters => induction entered body parameters) name arguments
            parameters cursor memory whole sound
      | sequence children =>
          rw [evaluateWithin, Node.evaluate]
          refine inOrder_agrees (fun child member => ?_) cursor memory whole sound
          exact inner child (Nat.lt_succ_of_le (Node.height_le_of_mem member)) parameters
      | first children =>
          rw [evaluateWithin, Node.evaluate]
          refine firstOf_agrees (fun child member => ?_) cursor memory whole sound
          exact inner child (Nat.lt_succ_of_le (Node.height_le_of_mem member)) parameters
      | repeated child minimum maximum =>
          have steps := inner child (Nat.lt_succ_self _) parameters
          rw [evaluateWithin, Node.evaluate_repeated]
          cases minimum.resolve parameters with
          | error cause => exact .same _
          | ok least =>
              cases atMost : maximum.mapM (Bound.resolve parameters) with
              | error cause => exact .same _
              | ok most =>
                  refine (loop_agrees steps least whole sound ?_ ?_).imp fun enough => ⟨enough, ?_⟩
                  · rintro bound rfl
                    exact (Nat.zero_add bound).symm
                  · rintro rfl
                    exact Nat.lt_succ_self _
                  · refine turns_lt_of_fuel whole ?_ enough
                    rintro bound rfl
                    exact Bound.lt_of_mapM_resolve atMost
      | lookahead child positive =>
          rw [evaluateWithin, Node.evaluate_lookahead]
          apply (inner child (Nat.lt_succ_self _) parameters cursor memory whole sound).proceed
          · exact fun _ _ after _ => .same _
          · exact fun after _ => .same _
      | lookbehind child =>
          rw [evaluateWithin]
          cases previous : cursor.previous? with
          | none =>
              rw [Node.evaluate, previous]
              exact .same _
          | some before =>
              obtain ⟨char, spans⟩ := Cursor.previous?_eq_some_iff.mp previous
              have wholeBefore : before.whole = text := spans.whole_eq.symm.trans whole
              rw [Node.evaluate_lookbehind child previous]
              apply (inner child (Nat.lt_succ_self _) parameters before memory wholeBefore
                sound).proceed
              · exact fun _ _ after _ => .same _
              · exact fun after _ => .same _
      | detectIndentation minimum child =>
          rw [evaluateWithin, Node.evaluate]
          cases minimum.resolveInt parameters with
          | error cause => exact .same _
          | ok least =>
              dsimp only
              split
              · exact .same _
              · exact inner child (Nat.lt_succ_self _) _ cursor memory whole sound
      | cases arms =>
          rw [evaluateWithin, Node.evaluate, Node.evaluateCases_eq]
          cases chosen : arms.find? fun arm => parameters.satisfies arm.1 with
          | none => exact .same _
          | some arm =>
              have member := List.mem_of_find?_eq_some chosen
              have lower : arm.2.height < (Node.cases arms).height :=
                Nat.lt_succ_of_le (Node.height_le_of_mem_arms member)
              exact inner arm.2 lower parameters cursor memory whole sound

end Setting

namespace Session

/-- Every evaluation ends. Whatever a session was asked before, evaluation with fuel gives its reply
to a query or runs out of fuel, and it does not run out from an amount on that the query, the
grammar and the limit give. -/
theorem ask_ends (setting : Setting) (text : List Char) (earlier : List Query) (query : Query) :
    let session := (fresh setting text).after earlier
    let reply := ((session.ask query).1, (session.ask query).2.memory)
    let within := fun fuel => setting.parseWithin fuel text query.offset query.parameters query.node
      session.memory
    (∀ fuel, within fuel = none ∨ within fuel = some reply) ∧
      ∀ extra,
        within (setting.grammar.fuel setting.limit text query.node + extra) = some reply := by
  intro session reply within
  have sound : session.memory.Sound setting.grammar text := by
    have kept := (sound_fresh setting text).after earlier
    rwa [Sound, setting_after, text_after] at kept
  have replies : reply =
      setting.parse text query.offset query.parameters query.node session.memory := by
    change session.setting.parse session.text _ _ _ _ = _
    rw [setting_after, text_after]
    rfl
  have agrees : ∀ fuel, Fuelled.Agrees
      (setting.grammar.fuel setting.limit text query.node ≤ fuel) (within fuel) reply := by
    intro fuel
    rw [replies]
    change Fuelled.Agrees _ (setting.parseWithin _ _ _ _ _ _) _
    unfold Setting.parseWithin Setting.parse
    cases located : Cursor.at? text query.offset with
    | none => exact .same _
    | some cursor =>
        obtain ⟨whole, -⟩ := Cursor.at?_eq_some_iff.mp located
        exact setting.evaluateWithin_agrees fuel (Nat.zero_add _) query.node query.parameters cursor
          session.memory whole sound
  constructor
  · intro fuel
    rcases agrees fuel with replied | ⟨out, -⟩
    · exact .inr replied
    · exact .inl out
  · intro extra
    rcases agrees (setting.grammar.fuel setting.limit text query.node + extra) with
      replied | ⟨-, short⟩
    · exact replied
    · exact absurd (Nat.le_add_right _ _) short

/-- A production that calls itself at its own place is stopped by the limit. -/
example :
    ((fresh ⟨.ofList [("a", ⟨none, [], .first [.call "a", .literal "x"]⟩)], false, 3⟩ ['x']).ask
      ⟨0, .empty, .zeroOrMore (.call "a")⟩).1 = .failed (.recursionLimitExceeded 3) := rfl

end Session

end ParametricGrammar
