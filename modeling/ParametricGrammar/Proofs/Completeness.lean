import ParametricGrammar.Proofs.Soundness
/-!
# Evaluation is complete

A derivation whose calls nest no deeper than the room that is left is reproduced by evaluation,
from every sound memory. A remembered failure cannot get in the way: it is derivable itself, and
outcomes are unique.
-/

namespace ParametricGrammar

namespace Setting

/-- Evaluation with some room has the given outcome, from every sound memory. For what is left of a
repetition, the counts and trees gathered so far are arbitrary. -/
def Reproduces (setting : Setting) (room : Nat) (production : String) (task : Task)
    (parameters : Parameters) (cursor : Cursor) (outcome : Outcome) : Prop :=
  match task with
  | .node node =>
      ∀ memory : Memory, memory.Sound setting.grammar cursor.whole →
        (node.evaluate production (setting.invoke room) parameters cursor memory).1 = outcome
  | .repetition child least most =>
      ∀ (minimum : Nat) (unbounded : Bool) (budget count : Nat) (gathered : List Tree)
        (memory : Memory), memory.Sound setting.grammar cursor.whole →
        least = minimum - count → most = allowance unbounded budget →
        (unbounded = true → cursor.rest.length < budget) →
        (repetition production (child.evaluate production (setting.invoke room) parameters)
          minimum unbounded budget count gathered cursor memory).1 =
            outcome.prepend gathered.reverse

variable {setting : Setting} {room : Nat} {production : String} {parameters : Parameters}
  {cursor : Cursor} {outcome : Outcome} {memory : Memory}

/-- A reproduced outcome comes with a sound memory. -/
theorem Reproduces.exists_reply {node : Node}
    (reproduces : setting.Reproduces room production (.node node) parameters cursor outcome)
    (sound : memory.Sound setting.grammar cursor.whole) :
    ∃ after, after.Sound setting.grammar cursor.whole ∧
      node.evaluate production (setting.invoke room) parameters cursor memory =
        (outcome, after) :=
  ⟨_, (node.evaluate_answers (invoke_answers setting room) production parameters cursor memory
      sound).memory, Prod.ext (reproduces memory sound) rfl⟩

/-- A reproduced match comes with a memory that is sound for what follows it. -/
theorem Reproduces.exists_matched {node : Node} {nodes : List Tree} {stop : Cursor}
    (reproduces : setting.Reproduces room production (.node node) parameters cursor
      (.matched nodes stop))
    (sound : memory.Sound setting.grammar cursor.whole) :
    ∃ after, after.Sound setting.grammar stop.whole ∧
      node.evaluate production (setting.invoke room) parameters cursor memory =
        (.matched nodes stop, after) := by
  have answers := node.evaluate_answers (invoke_answers setting room) production parameters
    cursor memory sound
  obtain ⟨after, -, reply⟩ := reproduces.exists_reply sound
  rw [reply] at answers
  exact ⟨after, answers.memory_stop, reply⟩

/-- A call is reproduced if its body is, entered with one call less. -/
theorem reproduces_reference {name : String} {arguments : List Binding} {bound : Parameters}
    {called : Production} {depth : ℕ∞} (found : setting.grammar.get? name = some called)
    (counts : arguments.length = called.formals.length)
    (binds : bindArguments production name parameters called.formals arguments .empty =
      .ok bound)
    (body : Derives setting.grammar depth name (.node called.body) bound cursor outcome)
    (reproduces : setting.Reproduces room name (.node called.body) bound cursor outcome) :
    setting.Reproduces (room + 1) production (.node (.reference name arguments)) parameters cursor
      (outcome.enclose ⟨name, bound, cursor.offset⟩) := by
  intro memory sound
  rw [Node.evaluate]
  cases known : (setting.cached && memory.failures.contains ⟨name, bound, cursor.offset⟩) with
  | true =>
      rw [invoke_known found counts binds known]
      rw [Bool.and_eq_true] at known
      have fails := sound ⟨name, bound, cursor.offset⟩ known.2 called found cursor rfl rfl
      rw [body.deterministic fails]
      rfl
  | false =>
      rw [invoke_succ found counts binds known, conclude_fst]
      rw [reproduces _ (sound.log _)]

/-- A repetition goes on behind a match that moves or counts against an upper bound. -/
theorem reproduces_again {depth : ℕ∞} {child : Node} {nodes : List Tree} {stop : Cursor}
    {least : Nat} {most : Option Nat} (unfilled : most ≠ some 0)
    (inside : Derives setting.grammar depth production (.node child) parameters cursor
      (.matched nodes stop))
    (moves : most = none → stop ≠ cursor)
    (head : setting.Reproduces room production (.node child) parameters cursor
      (.matched nodes stop))
    (tail : setting.Reproduces room production
      (.repetition child (least - 1) (most.map (· - 1))) parameters stop outcome) :
    setting.Reproduces room production (.repetition child least most) parameters cursor
      (outcome.prepend nodes) := by
  intro minimum unbounded budget count gathered memory sound rfl most_eq enough
  obtain ⟨after, soundAfter, reply⟩ := head.exists_matched sound
  cases budget with
  | zero => cases unbounded <;> simp_all [allowance]
  | succ budget =>
      have moved : unbounded = true → stop ≠ cursor := fun unbounded =>
        moves (by simp [most_eq, allowance, unbounded])
      have shorter : unbounded = true → stop.rest.length < budget := fun unbounded => by
        have less := inside.length_rest_lt (moved unbounded)
        have := enough unbounded
        omega
      have later := tail minimum unbounded budget (count + 1) (nodes.reverseAux gathered) after
        soundAfter (Nat.sub_sub _ _ _) (by cases unbounded <;> simp [most_eq, allowance]) shorter
      have notStuck : (unbounded && decide (stop.offset = cursor.offset)) = false := by
        simpa using fun unbounded =>
          mt (Cursor.eq_of_offset_eq inside.whole_eq) (moved unbounded)
      rw [repetition, reply]
      simp only [notStuck, Bool.false_eq_true, if_false, later]
      simp [List.reverseAux_eq]

end Setting

open Setting in
/-- What can be derived with some nesting of calls is what evaluation returns when it has room for
that nesting. -/
theorem Derives.reproduces (setting : Setting) {depth : ℕ∞} {production : String} {task : Task}
    {parameters : Parameters} {cursor : Cursor} {outcome : Outcome}
    (derives : Derives setting.grammar depth production task parameters cursor outcome)
    (room : Nat) (le : depth ≤ room) :
    setting.Reproduces room production task parameters cursor outcome := by
  induction derives generalizing room with
  | empty | startOfLine | endOfInput | sequenceNil | firstNil | uncovered =>
      intro memory sound
      rfl
  | literal spans =>
      intro memory sound
      rw [Node.evaluate, Cursor.skip?_eq_some_iff.mpr spans]
  | otherLiteral differs =>
      intro memory sound
      rw [Node.evaluate, Cursor.skip?_eq_none_iff.mpr differs]
  | chars spans member =>
      intro memory sound
      rw [Node.evaluate, Cursor.next?_eq_some_iff.mpr spans]
      simp only [member, if_true]
  | otherChars differs =>
      intro memory sound
      rw [Node.evaluate]
      split
      · rename_i char stop next
        have member := differs char stop (Cursor.next?_eq_some_iff.mp next)
        simp only [member, Bool.false_eq_true, if_false]
      · rfl
  | undefined missing =>
      intro memory sound
      rw [Node.evaluate, invoke_undefined missing]
  | arity found differ =>
      intro memory sound
      rw [Node.evaluate, invoke_arity found differ]
  | unbound found counts fails =>
      intro memory sound
      rw [Node.evaluate, invoke_unbound found counts fails]
  | reference nests found counts binds body induction =>
      have nested := nests.trans le
      cases room with
      | zero => simp at nested
      | succ room =>
          rw [Nat.cast_succ, ENat.add_le_add_iff_right ENat.one_ne_top] at nested
          exact reproduces_reference found counts binds body (induction room nested)
  | sequenceCons _ _ inductionHead inductionTail =>
      intro memory sound
      obtain ⟨after, soundAfter, reply⟩ := (inductionHead room le).exists_matched sound
      have later := inductionTail room le after soundAfter
      rw [Node.evaluate] at later ⊢
      rw [Node.evaluateAll_matched reply, later]
  | sequenceStop _ stops induction =>
      intro memory sound
      obtain ⟨after, -, reply⟩ := (induction room le).exists_reply sound
      rw [Node.evaluate, Node.evaluateAll, reply]
      split <;> simp_all
  | firstNext _ _ inductionHead inductionTail =>
      intro memory sound
      obtain ⟨after, soundAfter, reply⟩ := (inductionHead room le).exists_reply sound
      have later := inductionTail room le after soundAfter
      rw [Node.evaluate] at later ⊢
      rw [Node.evaluateFirst, reply]
      exact later
  | firstStop _ stops induction =>
      intro memory sound
      obtain ⟨after, -, reply⟩ := (induction room le).exists_reply sound
      rw [Node.evaluate, Node.evaluateFirst, reply]
      split <;> simp_all
  | minimumUnbound fails =>
      intro memory sound
      rw [Node.evaluate, fails]
  | maximumUnbound atLeast fails =>
      intro memory sound
      rw [Node.evaluate, atLeast]
      dsimp only
      rw [fails]
  | bounded atLeast atMost _ induction =>
      intro memory sound
      have repeats := induction room le _ false _ 0 [] memory sound rfl rfl (by simp)
      rw [Node.evaluate, atLeast]
      dsimp only
      rw [atMost]
      simpa using repeats
  | unbounded atLeast _ induction =>
      intro memory sound
      have repeats := induction room le _ true _ 0 [] memory sound rfl rfl
        (fun _ => Nat.lt_succ_self _)
      rw [Node.evaluate, atLeast]
      simpa using repeats
  | lookaheadMatched _ induction =>
      intro memory sound
      obtain ⟨after, -, reply⟩ := (induction room le).exists_reply sound
      rw [Node.evaluate, reply]
      rfl
  | lookaheadUnmatched _ induction =>
      intro memory sound
      obtain ⟨after, -, reply⟩ := (induction room le).exists_reply sound
      rw [Node.evaluate, reply]
      dsimp only
      split <;> simp_all
  | lookaheadFailed _ induction =>
      intro memory sound
      obtain ⟨after, -, reply⟩ := (induction room le).exists_reply sound
      rw [Node.evaluate, reply]
  | lookbehindStart starts =>
      intro memory sound
      rw [Node.evaluate, Cursor.previous?_eq_none_iff.mpr starts]
  | lookbehindMatched spans _ induction =>
      intro memory sound
      rw [spans.whole_eq] at sound
      obtain ⟨after, -, reply⟩ := (induction room le).exists_reply sound
      rw [Node.evaluate, Cursor.previous?_eq_some_iff.mpr ⟨_, spans⟩]
      simp [reply]
  | lookbehindMissed spans inside missed induction =>
      intro memory sound
      rw [spans.whole_eq] at sound
      obtain ⟨after, -, reply⟩ := (induction room le).exists_reply sound
      have offset := mt
        (Cursor.eq_of_offset_eq (inside.whole_eq.trans spans.whole_eq.symm)) missed
      rw [Node.evaluate, Cursor.previous?_eq_some_iff.mpr ⟨_, spans⟩]
      simp [reply, offset]
  | lookbehindStop spans _ stops induction =>
      intro memory sound
      rw [spans.whole_eq] at sound
      obtain ⟨after, -, reply⟩ := (induction room le).exists_reply sound
      rw [Node.evaluate, Cursor.previous?_eq_some_iff.mpr ⟨_, spans⟩]
      dsimp only
      rw [reply]
      split <;> simp_all
  | indentationUnbound fails =>
      intro memory sound
      rw [Node.evaluate, fails]
  | shallow atLeast less =>
      intro memory sound
      rw [Node.evaluate, atLeast]
      simp only [less, if_true]
  | indentation atLeast detects enough _ induction =>
      intro memory sound
      subst detects
      rw [Node.evaluate, atLeast]
      simp only [enough, if_false]
      exact induction room le memory sound
  | covered satisfies _ induction =>
      intro memory sound
      rw [Node.evaluate, Node.evaluateCases, if_pos satisfies]
      exact induction room le memory sound
  | otherCase satisfies _ induction =>
      intro memory sound
      have later := induction room le memory sound
      rw [Node.evaluate] at later ⊢
      rw [Node.evaluateCases, if_neg (by simp [satisfies])]
      exact later
  | full =>
      intro minimum unbounded budget count gathered memory sound least most enough
      obtain ⟨rfl, rfl⟩ : unbounded = false ∧ budget = 0 := by
        cases unbounded <;> simp_all [allowance]
      rw [repetition, closeRepetition_eq, ← least]
  | exhausted unfilled _ induction =>
      intro minimum unbounded budget count gathered memory sound least most enough
      obtain ⟨after, -, reply⟩ := (induction room le).exists_reply sound
      cases budget with
      | zero => cases unbounded <;> simp_all [allowance]
      | succ budget => rw [repetition, reply, closeRepetition_eq, ← least]
  | repetitionFailed unfilled _ induction =>
      intro minimum unbounded budget count gathered memory sound least most enough
      obtain ⟨after, -, reply⟩ := (induction room le).exists_reply sound
      cases budget with
      | zero => cases unbounded <;> simp_all [allowance]
      | succ budget =>
          rw [repetition, reply]
          rfl
  | zeroWidth _ induction =>
      intro minimum unbounded budget count gathered memory sound least most enough
      obtain ⟨after, -, reply⟩ := (induction room le).exists_reply sound
      obtain rfl : unbounded = true := by
        cases unbounded <;> simp_all [allowance]
      cases budget with
      | zero => simp at enough
      | succ budget =>
          rw [repetition, reply]
          simp [closeRepetition_eq, least, Nat.sub_sub, List.reverseAux_eq]
  | again unfilled inside moves _ inductionHead inductionTail =>
      exact reproduces_again unfilled inside moves (inductionHead room le) (inductionTail room le)

/-- A derivable match of a root that covers the whole text is what a parse of the text finds. -/
theorem Setting.parseAll_of_derives {setting : Setting} {root : String} {text : List Char}
    {tree : Tree} {stop : Cursor}
    (derives : Derives setting.grammar setting.limit outside (.node (.call root)) .empty
      (.start text) (.matched [tree] stop))
    (ends : stop.rest = []) : (setting.parseAll root text).1 = .ok tree := by
  have reproduced : (setting.invoke setting.limit outside root [] .empty (.start text) .fresh).1 =
      .matched [tree] stop :=
    derives.reproduces setting setting.limit le_rfl .fresh Memory.sound_fresh
  simp only [parseAll, reproduced, ends, List.isEmpty_nil, if_true]

/-- Where a match of a root that covers the whole text is derivable at all, a parse of the text
finds it or exceeds the limit. -/
theorem Setting.parseAll_or_exceeded {setting : Setting} {root : String} {text : List Char}
    {depth : ℕ∞} {tree : Tree} {stop : Cursor}
    (derives : Derives setting.grammar depth outside (.node (.call root)) .empty (.start text)
      (.matched [tree] stop))
    (ends : stop.rest = []) :
    (setting.parseAll root text).1 = .ok tree ∨
      (setting.parseAll root text).1 = .error (.recursionLimitExceeded setting.limit) := by
  have answers := invoke_answers setting setting.limit outside root [] .empty (.start text) .fresh
    Memory.sound_fresh
  rcases answers.outcome with exceeded | answered
  · right
    simp only [parseAll, exceeded]
  · left
    have same := derives.deterministic answered
    simp only [parseAll, ← same, ends, List.isEmpty_nil, if_true]

end ParametricGrammar
