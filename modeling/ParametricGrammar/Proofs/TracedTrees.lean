import ParametricGrammar.Proofs.CallStack
import ParametricGrammar.Proofs.WellFormed
/-!
# Trees and the events of their runs

A run reports every call that matched, also inside of alternatives that were abandoned later and of
lookaheads. The trees that an expression gives are among those that its calls gave, in the order of
the calls. So a run reports the nodes of its tree when they end, children before their parent, and
the root last; what it reports besides was discarded.
-/

namespace ParametricGrammar

/-! ### What is reported of a tree -/

namespace Tree

mutual

/-- The nodes of a tree, each one behind its content. -/
def postorder : Tree → List Tree
  | ⟨name, parameters, content, start, stop⟩ =>
      postorderAll content ++ [⟨name, parameters, content, start, stop⟩]

/-- The nodes of the trees of a list, one tree after the other. -/
def postorderAll : List Tree → List Tree
  | [] => []
  | tree :: rest => postorder tree ++ postorderAll rest

end

private theorem postorderAll_append (left right : List Tree) :
    postorderAll (left ++ right) = postorderAll left ++ postorderAll right := by
  induction left with
  | nil => rfl
  | cons tree left induction => simp [postorderAll, induction]

private theorem postorderAll_sublist {fewer more : List Tree} (sublist : fewer.Sublist more) :
    (postorderAll fewer).Sublist (postorderAll more) := by
  induction sublist with
  | slnil => exact .refl []
  | cons tree _ induction => exact induction.trans (List.sublist_append_right _ _)
  | cons_cons tree _ induction => exact (List.Sublist.refl _).append induction

/-- The call that a node stands for, and where it ended. -/
def report (tree : Tree) : Call × Nat :=
  (⟨tree.name, tree.parameters, tree.start⟩, tree.stop)

end Tree

/-- The call that an event reports to have matched, and where it ended. -/
def Event.success? : Event → Option (Call × Nat)
  | .success call stop => some (call, stop)
  | .enter _ | .failure _ | .hit _ | .zeroWidth _ _ => none

/-- The matches that events report, in order. -/
def successes (events : List Event) : List (Call × Nat) := events.filterMap Event.success?

/-- The trees of a match. -/
def Outcome.nodes : Outcome → List Tree
  | .matched nodes _ => nodes
  | .unmatched | .failed _ => []

/-- A memory grows to another one by events that report the nodes of some trees, and maybe more. -/
def Memory.Reports (before after : Memory) (trees : List Tree) : Prop :=
  ∃ events, before.Gains after events ∧
    ((Tree.postorderAll trees).map Tree.report).Sublist (successes events)

namespace Memory.Reports

variable {first second third : Memory} {trees fewer more : List Tree}

theorem refl (memory : Memory) : memory.Reports memory [] :=
  ⟨[], .refl memory, .refl []⟩

private theorem log (memory : Memory) (event : Event) : memory.Reports (memory.log event) [] :=
  ⟨[event], .log memory event, List.nil_sublist _⟩

theorem trans (left : first.Reports second trees) (right : second.Reports third more) :
    first.Reports third (trees ++ more) := by
  obtain ⟨earlier, gained, reported⟩ := left
  obtain ⟨later, gains, reports⟩ := right
  refine ⟨earlier ++ later, gained.trans gains, ?_⟩
  rw [Tree.postorderAll_append, List.map_append, successes, List.filterMap_append]
  exact reported.append reports

/-- Trees may be discarded. -/
theorem sublist (reports : first.Reports second more) (kept : trees.Sublist more) :
    first.Reports second trees := by
  obtain ⟨events, gains, reports⟩ := reports
  exact ⟨events, gains, ((Tree.postorderAll_sublist kept).map Tree.report).trans reports⟩

/-- The success of a call reports the node around the trees of its body. -/
theorem enclose (reports : first.Reports second trees) (call : Call) (stop : Nat) :
    first.Reports (second.log (.success call stop))
      [⟨call.name, call.parameters, trees, call.offset, stop⟩] := by
  obtain ⟨events, gains, reports⟩ := reports
  refine ⟨events ++ [.success call stop], gains.trans (.log second _), ?_⟩
  have ends : successes (events ++ [.success call stop]) = successes events ++ [(call, stop)] := by
    rw [successes, List.filterMap_append]
    rfl
  rw [ends, Tree.postorderAll, Tree.postorderAll, Tree.postorder, List.append_nil, List.map_append]
  exact reports.append (.refl _)

end Memory.Reports

/-! ### Trees that scripts keep -/

namespace Script

/-- On each way through a script, the trees of its outcome are among some trees and those that calls
gave on the way, in this order. -/
def Keeps : List Tree → Script → Prop
  | trees, .done outcome => outcome.nodes.Sublist trees
  | trees, .note _ _ later => later.Keeps trees
  | trees, .call _ onMatch onMiss =>
      (∀ nodes stop, (onMatch nodes stop).Keeps (trees ++ nodes)) ∧ onMiss.Keeps trees

variable {script : Script} {onMatch : List Tree → Cursor → Script} {onMiss : Script}
  {trees more : List Tree}

theorem Keeps.mono (keeps : script.Keeps trees) (sublist : trees.Sublist more) :
    script.Keeps more := by
  induction script generalizing trees more with
  | done outcome => exact keeps.trans sublist
  | note production offset later induction => exact induction keeps sublist
  | call ask onMatch onMiss hit miss =>
      exact ⟨fun nodes stop => hit nodes stop (keeps.1 nodes stop) (sublist.append_right nodes),
        miss keeps.2 sublist⟩

/-- What goes on behind a script may keep the trees of its outcome, and others from before. -/
theorem Keeps.andThen {before : List Tree} (keeps : script.Keeps [])
    (matched : ∀ nodes stop, (onMatch nodes stop).Keeps (before ++ nodes))
    (unmatched : onMiss.Keeps before) : (script.andThen onMatch onMiss).Keeps before := by
  have general : ∀ trees, script.Keeps trees →
      (script.andThen onMatch onMiss).Keeps (before ++ trees) := by
    clear keeps
    induction script with
    | done outcome =>
        intro trees keeps
        cases outcome with
        | matched nodes stop => exact (matched nodes stop).mono (keeps.append_left before)
        | unmatched => exact unmatched.mono (List.sublist_append_left before trees)
        | failed error => exact List.nil_sublist _
    | note production offset later induction => exact induction
    | call ask _ _ hit miss =>
        intro trees keeps
        refine ⟨fun nodes stop => ?_, miss trees keeps.2⟩
        rw [List.append_assoc]
        exact hit nodes stop _ (keeps.1 nodes stop)
  rw [← List.append_nil before]
  exact general [] keeps

private theorem keeps_check (holds : Bool) (cursor : Cursor) :
    (done (.check holds cursor)).Keeps trees := by
  cases holds <;> exact List.nil_sublist trees

private theorem keeps_closeRepetition (minimum count : Nat) (nodes : List Tree) (cursor : Cursor) :
    (done (closeRepetition minimum count nodes cursor)).Keeps nodes.reverse := by
  rw [closeRepetition]
  split
  · exact .refl _
  · exact List.nil_sublist _

/-- A repetition keeps what it has gathered, which is held in reverse. -/
theorem keeps_repetition {step : Cursor → Script} (steps : ∀ cursor, (step cursor).Keeps [])
    (production : String) (minimum : Nat) (unbounded : Bool) (budget count : Nat)
    (nodes : List Tree) (cursor : Cursor) :
    (repetition production step minimum unbounded budget count nodes cursor).Keeps
      nodes.reverse := by
  induction budget generalizing count nodes cursor with
  | zero => exact keeps_closeRepetition minimum count nodes cursor
  | succ budget induction =>
      refine (steps cursor).andThen (fun more stop => ?_)
        (keeps_closeRepetition minimum count nodes cursor)
      have gathered : nodes.reverse ++ more = (more.reverseAux nodes).reverse := by
        simp [List.reverseAux_eq]
      rw [gathered]
      split
      · exact keeps_closeRepetition ..
      · exact induction ..

/-- A run reports the trees of its outcome if its calls report theirs. -/
theorem Keeps.run {calls : Ask → Memory → Reply} {start memory : Memory}
    (reports : ∀ (ask : Ask) (memory : Memory),
      memory.Reports (calls ask memory).2 (calls ask memory).1.nodes)
    (keeps : script.Keeps trees) (earlier : start.Reports memory trees) :
    start.Reports (script.run calls memory).2 (script.run calls memory).1.nodes := by
  induction script generalizing memory trees with
  | done outcome => exact earlier.sublist keeps
  | note production offset later induction =>
      refine induction keeps ?_
      rw [← List.append_nil trees]
      exact earlier.trans (.log memory _)
  | call ask onMatch onMiss hit miss =>
      have made := earlier.trans (reports ask memory)
      rw [Script.run]
      match reply : calls ask memory with
      | (.matched nodes stop, after) =>
          rw [reply] at made
          exact hit nodes stop (keeps.1 nodes stop) made
      | (.unmatched, after) =>
          rw [reply] at made
          exact miss keeps.2 (made.sublist (List.sublist_append_left trees []))
      | (.failed error, after) =>
          rw [reply] at made
          exact made.sublist (List.nil_sublist _)

end Script

namespace Node

variable (production : String)

mutual

private theorem keeps_script : (node : Node) → (parameters : Parameters) → (cursor : Cursor) →
    (script production node parameters cursor).Keeps []
  | .empty, _, _ => List.nil_sublist []
  | .startOfLine, _, _ => Script.keeps_check _ _
  | .endOfInput, _, _ => Script.keeps_check _ _
  | .literal spelling, _, cursor => by
      rw [script]
      cases cursor.skip? spelling.toList <;> exact List.nil_sublist []
  | .chars set, _, cursor => by
      rw [script]
      cases cursor.next? with
      | none => exact List.nil_sublist []
      | some pair => exact Script.keeps_check _ _
  | .reference _ _, _, _ => ⟨fun nodes _ => List.Sublist.refl nodes, List.nil_sublist []⟩
  | .sequence children, parameters, cursor => by
      rw [script]
      exact keeps_scriptAll children parameters cursor
  | .first children, parameters, cursor => by
      rw [script]
      exact keeps_scriptFirst children parameters cursor
  | .repeated child minimum maximum, parameters, cursor => by
      have steps := keeps_script child parameters
      rw [script]
      cases minimum.resolve parameters with
      | error cause => exact List.nil_sublist []
      | ok least =>
          cases maximum with
          | none => exact Script.keeps_repetition steps _ _ _ _ _ [] cursor
          | some bound =>
              dsimp only
              cases bound.resolve parameters with
              | error cause => exact List.nil_sublist []
              | ok most => exact Script.keeps_repetition steps _ _ _ _ _ [] cursor
  | .lookahead child _, parameters, cursor => by
      rw [script]
      exact (keeps_script child parameters cursor).andThen
        (fun _ _ => Script.keeps_check _ _) (Script.keeps_check _ _)
  | .lookbehind child, parameters, cursor => by
      rw [script]
      cases cursor.previous? with
      | none => exact List.nil_sublist []
      | some before =>
          exact (keeps_script child parameters before).andThen
            (fun _ _ => Script.keeps_check _ _) (List.nil_sublist [])
  | .detectIndentation minimum child, parameters, cursor => by
      rw [script]
      cases minimum.resolveInt parameters with
      | error cause => exact List.nil_sublist []
      | ok least =>
          dsimp only
          split
          · exact List.nil_sublist []
          · exact keeps_script child _ cursor
  | .cases arms, parameters, cursor => by
      rw [script]
      exact keeps_scriptCases arms parameters cursor

private theorem keeps_scriptAll : (children : List Node) → (parameters : Parameters) →
    (cursor : Cursor) → (scriptAll production children parameters cursor).Keeps []
  | [], _, _ => List.nil_sublist []
  | node :: rest, parameters, cursor =>
      (keeps_script node parameters cursor).andThen
        (fun nodes stop => (keeps_scriptAll rest parameters stop).andThen
          (fun more _ => List.Sublist.refl (nodes ++ more)) (List.nil_sublist nodes))
        (List.nil_sublist [])

private theorem keeps_scriptFirst : (children : List Node) → (parameters : Parameters) →
    (cursor : Cursor) → (scriptFirst production children parameters cursor).Keeps []
  | [], _, _ => List.nil_sublist []
  | node :: rest, parameters, cursor =>
      (keeps_script node parameters cursor).andThen (fun nodes _ => List.Sublist.refl nodes)
        (keeps_scriptFirst rest parameters cursor)

private theorem keeps_scriptCases : (arms : List (Parameters × Node)) → (parameters : Parameters) →
    (cursor : Cursor) → (scriptCases production arms parameters cursor).Keeps []
  | [], _, _ => List.nil_sublist []
  | (pattern, body) :: rest, parameters, cursor => by
      rw [scriptCases]
      split
      · exact keeps_script body parameters cursor
      · exact keeps_scriptCases rest parameters cursor

end

end Node

/-! ### Calls -/

namespace Setting

variable {setting : Setting} {memory : Memory}

/-- When a call ends, the node of a match is reported behind its content. -/
theorem reports_conclude {reply : Reply} (call : Call)
    (body : memory.Reports reply.2 reply.1.nodes) :
    memory.Reports (setting.conclude call reply).2 (setting.conclude call reply).1.nodes := by
  match reply with
  | (.matched nodes stop, after) => exact body.enclose call stop.offset
  | (.unmatched, after) =>
      have ends := body.trans (.log after (.failure call))
      rw [conclude]
      split
      · exact ends
      · exact ends
  | (.failed error, after) => exact body

/-- The nodes of what a call gives are reported while it is evaluated. -/
theorem invoke_reports_nodes (setting : Setting) (room : Nat) (caller : String) (ask : Ask)
    (memory : Memory) :
    memory.Reports ((setting.invoke room).reply caller ask memory).2
      ((setting.invoke room).reply caller ask memory).1.nodes := by
  induction room generalizing caller ask memory with
  | zero =>
      rw [Invoke.reply, invoke_eq]
      split
      · exact .refl memory
      · split
        · exact .log memory _
        · exact .refl memory
  | succ room induction =>
      rw [Invoke.reply, invoke_eq]
      split
      · exact .refl memory
      · rename_i called call resolved
        split
        · exact .log memory _
        · have body := (called.body.keeps_script call.name call.parameters ask.cursor).run
            (induction call.name) (.log memory (.enter call))
          exact reports_conclude call body

/-- A call that ends in a match gives one tree, and its success is the last event. -/
theorem head?_events_of_conclude {call : Call} {reply : Reply} {nodes : List Tree} {stop : Cursor}
    {after : Memory} (ends : setting.conclude call reply = (.matched nodes stop, after)) :
    ∃ tree, nodes = [tree] ∧ after.events.head? = some (.success tree.report.1 tree.report.2) := by
  match reply with
  | (.matched content stop, before) =>
      cases ends
      exact ⟨_, rfl, rfl⟩
  | (.unmatched, before) => cases ends
  | (.failed error, before) => cases ends

private theorem head?_events_of_invoke {room : Nat} {caller name : String}
    {arguments : List Binding} {parameters : Parameters} {cursor stop : Cursor}
    {nodes : List Tree} {after : Memory}
    (reply : setting.invoke room caller name arguments parameters cursor memory =
      (.matched nodes stop, after)) :
    ∃ tree, nodes = [tree] ∧ after.events.head? = some (.success tree.report.1 tree.report.2) := by
  rw [invoke_eq] at reply
  split at reply
  · cases reply
  · split at reply
    · cases reply
    · split at reply
      · cases reply
      · exact head?_events_of_conclude reply

/-- The trace accounts for the tree. When a production covers a text, the nodes of its tree in
postorder are among the reported matches, in the order in which these were reported, each with its
name, parameters and range; and the last match that is reported is that of the root. -/
theorem nodes_sublist_successes {root : String} {text : List Char} {tree : Tree}
    (parsed : (setting.parseAll root text).1 = .ok tree) :
    (tree.postorder.map Tree.report).Sublist (successes (setting.parseAll root text).2) ∧
      (successes (setting.parseAll root text).2).getLast? = some tree.report := by
  have reports := setting.invoke_reports_nodes setting.limit outside
    ⟨root, [], .empty, .start text⟩ .fresh
  unfold parseAll at parsed ⊢
  match reply : setting.invoke setting.limit outside root [] .empty (.start text) .fresh with
  | (.unmatched, after) => simp [reply] at parsed
  | (.failed error, after) => simp [reply] at parsed
  | (.matched nodes stop, after) =>
      obtain ⟨found, rfl, last⟩ := head?_events_of_invoke reply
      rw [Invoke.reply, reply] at reports
      rw [reply] at parsed
      obtain rfl : found = tree := by
        simp only at parsed
        split at parsed
        · exact Except.ok.inj parsed
        · cases parsed
      obtain ⟨events, gains, reported⟩ := reports
      have all : after.events.reverse = events := by
        rw [gains]
        simp [Memory.fresh]
      rw [← List.getLast?_reverse, all, List.getLast?_eq_some_iff] at last
      obtain ⟨earlier, split⟩ := last
      dsimp only
      rw [all]
      constructor
      · simpa [Outcome.nodes, Tree.postorderAll] using reported
      · rw [split, successes, List.filterMap_append]
        exact List.getLast?_concat

theorem successes_word :
    (parseAll ⟨Grammar.words, false, 2⟩ "word" ['o', 'k']).1 = .ok Tree.word ∧
      (Tree.word.postorder.map Tree.report).Sublist
        (successes (parseAll ⟨Grammar.words, false, 2⟩ "word" ['o', 'k']).2) ∧
      (successes (parseAll ⟨Grammar.words, false, 2⟩ "word" ['o', 'k']).2).getLast? =
        some Tree.word.report :=
  ⟨rfl, nodes_sublist_successes
    (show (parseAll ⟨Grammar.words, false, 2⟩ "word" ['o', 'k']).1 = .ok Tree.word from rfl)⟩

/-- The letters of the abandoned alternative and of the lookahead are reported before those of the
tree. -/
example : (parseAll ⟨Grammar.words, false, 2⟩ "word" ['o', 'k']).2.filterMap
    (fun | .success call stop => some (call.name, call.offset, stop) | _ => none) =
      [("letter", 0, 1), ("letter", 0, 1), ("letter", 0, 1), ("letter", 1, 2), ("word", 0, 2)] :=
  rfl

end Setting

end ParametricGrammar
