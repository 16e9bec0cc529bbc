import ParametricGrammar.Proofs.Dialect.Traces
import ParametricGrammar.Proofs.Scripts
/-!
# Runs that remember, without places

A run with a memory does not enter a call that is known to fail. `Explores` says how far such a run
gets with the room that is left, and what it knows then, in terms of the characters ahead alone: a
text with those characters elsewhere is explored alike.
-/

namespace ParametricGrammar

namespace Bnf

namespace Dialect

variable {source : List Char} {node : Node} {asked before behind : List Spot} {reading : Reading}

/-! ### The way through a script -/

/-- The spots that a script asks for on its way to what is read, whatever trees show what is read
there. -/
inductive Passes (source : List Char) : Script → List Spot → Reading → Prop where
  | done {outcome : Outcome} {reading : Reading} (shown : Shows source reading outcome) :
      Passes source (.done outcome) [] reading
  | note {production : String} {offset : ℕ} {later : Script} {asked : List Spot}
      {reading : Reading} (rest : Passes source later asked reading) :
      Passes source (.note production offset later) asked reading
  | matched {name : String} {cursor : Cursor} {onMatch : List Tree → Cursor → Script}
      {onMiss : Script} {asked : List Spot} {read : List Part × List Char} {reading : Reading}
      (whole : cursor.whole = source)
      (traces : Traces (.call name) cursor.rest [⟨name, cursor.rest⟩] (some read))
      (later : ∀ trees stop, Shows source (some read) (.matched trees stop) →
        Passes source (onMatch trees stop) asked reading) :
      Passes source (.call ⟨name, [], .empty, cursor⟩ onMatch onMiss)
        (⟨name, cursor.rest⟩ :: asked) reading
  | unmatched {name : String} {cursor : Cursor} {onMatch : List Tree → Cursor → Script}
      {onMiss : Script} {asked : List Spot} {reading : Reading} (whole : cursor.whole = source)
      (traces : Traces (.call name) cursor.rest [⟨name, cursor.rest⟩] none)
      (later : Passes source onMiss asked reading) :
      Passes source (.call ⟨name, [], .empty, cursor⟩ onMatch onMiss)
        (⟨name, cursor.rest⟩ :: asked) reading

namespace Passes

variable {script onMiss : Script} {onMatch : List Tree → Cursor → Script}
  {read : List Part × List Char}

private theorem andThen_matched (passes : Passes source script before (some read))
    (later : ∀ trees stop, Shows source (some read) (.matched trees stop) →
      Passes source (onMatch trees stop) behind reading) :
    Passes source (script.andThen onMatch onMiss) (before ++ behind) reading := by
  generalize same : some read = result at passes
  induction passes with
  | done shown =>
      cases shown with
      | missed => cases same
      | matched whole made left => exact later _ _ (same ▸ .matched whole made left)
  | note _ induction => exact .note (induction same)
  | matched whole traces _ induction =>
      exact .matched whole traces fun trees stop shown => induction trees stop shown same
  | unmatched whole traces _ induction => exact .unmatched whole traces (induction same)

private theorem andThen_unmatched (passes : Passes source script before none)
    (later : Passes source onMiss behind reading) :
    Passes source (script.andThen onMatch onMiss) (before ++ behind) reading := by
  generalize same : (none : Reading) = result at passes
  induction passes with
  | done shown =>
      cases shown with
      | missed => exact later
      | matched => cases same
  | note _ induction => exact .note (induction same)
  | matched whole traces _ induction =>
      exact .matched whole traces fun trees stop shown => induction trees stop shown same
  | unmatched whole traces _ induction => exact .unmatched whole traces (induction same)

/-- A script that ends behind a match asks for nothing more. -/
theorem ofMatch (passes : Passes source script asked (some read))
    (later : ∀ trees stop, Shows source (some read) (.matched trees stop) →
      Passes source (onMatch trees stop) [] reading) :
    Passes source (script.andThen onMatch onMiss) asked reading := by
  simpa using passes.andThen_matched later

/-- A script that ends behind a failure asks for nothing more. -/
theorem ofMiss (passes : Passes source script asked none)
    (later : Passes source onMiss [] reading) :
    Passes source (script.andThen onMatch onMiss) asked reading := by
  simpa using passes.andThen_unmatched later

end Passes

/-- The script of an expression, or of a repetition from its start on, passes what is asked for. -/
def ScriptPasses (source : List Char) (production : String) (cursor : Cursor) (asked : List Spot)
    (reading : Reading) : Node → Prop
  | .repeated child (.fixed least) none =>
      ∀ minimum budget count earlier, least.toNat = minimum - count →
        cursor.rest.length < budget →
        Passes source
          (.repetition production (child.script production .empty) minimum true budget count
            earlier cursor) asked
          (Reading.prepend (earlier.reverse.map (Part.ofTree source)) reading)
  | node => Passes source (node.script production .empty cursor) asked reading

namespace ScriptPasses

variable {production : String} {cursor : Cursor} {child : Node} {least : UInt32}

theorem passes (passes : ScriptPasses source production cursor asked reading node) :
    Passes source (node.script production .empty cursor) asked reading := by
  unfold ScriptPasses at passes
  split at passes
  · rename_i child least
    have whole := passes least.toNat _ 0 [] rfl (Nat.lt_succ_self _)
    rw [List.reverse_nil, List.map_nil, Reading.prepend_nil] at whole
    exact whole
  · exact passes

private theorem exhausted (whole : cursor.whole = source)
    (misses : Passes source (child.script production .empty cursor) asked none) :
    ScriptPasses source production cursor asked
      (if least = 0 then some ([], cursor.rest) else none)
      (.repeated child (.fixed least) none) := by
  intro minimum budget count earlier counts enough
  obtain ⟨budget, rfl⟩ := Nat.exists_eq_succ_of_ne_zero (Nat.ne_zero_of_lt enough)
  refine misses.ofMiss (.done ?_)
  by_cases none : least = 0
  · have enough' : minimum ≤ count := by
      have zero : least.toNat = 0 := by rw [none]; rfl
      omega
    simp only [closeRepetition, enough', none, if_true]
    exact .matched whole (by simp) rfl
  · have under : ¬ minimum ≤ count := by
      intro enough'
      exact none (UInt32.toNat_inj.mp (by rw [counts, Nat.sub_eq_zero_of_le enough']; rfl))
    simp only [closeRepetition, under, none, if_false]
    exact .missed

private theorem idle {parts : List Part}
    (once : Passes source (child.script production .empty cursor) asked
      (some (parts, cursor.rest)))
    (whole : cursor.whole = source) (atMost : least.toNat ≤ 1) :
    ScriptPasses source production cursor asked (some (parts, cursor.rest))
      (.repeated child (.fixed least) none) := by
  intro minimum budget count earlier counts enough
  obtain ⟨budget, rfl⟩ := Nat.exists_eq_succ_of_ne_zero (Nat.ne_zero_of_lt enough)
  refine once.ofMatch fun trees stop shown => ?_
  cases shown with
  | matched whole' made left =>
      obtain rfl := Cursor.eq_of_rest_eq (whole'.trans whole.symm) left.symm
      have enough' : minimum ≤ count + 1 := by omega
      simp only [Bool.true_and, decide_true, if_true, closeRepetition, enough']
      refine .note (.done (.matched whole ?_ rfl))
      simp [List.reverseAux_eq, made]

private theorem again {middle rest : List Char} {parts more : List Part}
    (head : Passes source (child.script production .empty cursor) before (some (parts, middle)))
    (fewer : middle.length < cursor.rest.length) (whole : cursor.whole = source)
    (atMost : least.toNat ≤ 1)
    (tail : ∀ stop, stop.whole = source → stop.rest = middle →
      ScriptPasses source production stop behind (some (more, rest)) (.zeroOrMore child)) :
    ScriptPasses source production cursor (before ++ behind) (some (parts ++ more, rest))
      (.repeated child (.fixed least) none) := by
  intro minimum budget count earlier counts enough
  obtain ⟨budget, rfl⟩ := Nat.exists_eq_succ_of_ne_zero (Nat.ne_zero_of_lt enough)
  refine head.andThen_matched fun trees stop shown => ?_
  cases shown with
  | matched whole' made left =>
      have elsewhere : stop.offset ≠ cursor.offset := by
        intro same
        obtain rfl := Cursor.eq_of_offset_eq (whole'.trans whole.symm) same
        exact absurd fewer (left ▸ Nat.lt_irrefl _)
      simp only [Bool.true_and, elsewhere, decide_false, Bool.false_eq_true, if_false]
      have later := tail stop whole' left.symm minimum budget (count + 1)
        (trees.reverseAux earlier) (by simp; omega) (by rw [← left]; omega)
      simpa [Reading.prepend, List.reverseAux_eq, made] using later

end ScriptPasses

private theorem least_le_one {least : UInt32}
    (form : decide ((Bound.fixed least, (none : Option Bound)) ∈
      [(.fixed 0, some (.fixed 1)), (.fixed 0, none), (.fixed 1, none)]) = true) :
    least.toNat ≤ 1 := by
  simp only [List.mem_cons, Prod.mk.injEq, reduceCtorEq, and_false, false_or, and_true,
    List.not_mem_nil, or_false, decide_eq_true_eq, Bound.fixed.injEq] at form
  rcases form with rfl | rfl <;> decide

/-- What an expression asks for is what its script asks for in any text. -/
theorem Traces.passes {ahead : List Char} (traces : Traces node ahead asked reading)
    (traceable : node.isTraceable = true) (production : String) {cursor : Cursor}
    (whole : cursor.whole = source) (located : cursor.rest = ahead) :
    ScriptPasses source production cursor asked reading node := by
  induction traces generalizing production cursor with
  | empty | nil => exact .done (.matched whole rfl located.symm)
  | noOther => exact .done .missed
  | ends =>
      change Passes _ _ _ _
      rw [Node.script, located]
      exact .done (.matched whole rfl located.symm)
  | goesOn more =>
      change Passes _ _ _ _
      rw [Node.script, located, List.isEmpty_eq_false_iff.mpr more]
      exact .done .missed
  | literal spelled =>
      obtain ⟨stop, spans, left⟩ := Cursor.exists_spans (located.trans spelled)
      change Passes _ _ _ _
      rw [Node.script, Cursor.skip?_eq_some_iff.mpr spans]
      exact .done (.matched (spans.whole_eq.trans whole) rfl left.symm)
  | otherLiteral differs =>
      change Passes _ _ _ _
      rw [Node.script, Cursor.skip?_eq_none_iff.mpr fun stop spans =>
        differs ⟨_, (located.symm.trans spans.1).symm⟩]
      exact .done .missed
  | chars member =>
      obtain ⟨stop, spans, left⟩ :=
        Cursor.exists_spans (located.trans (List.singleton_append).symm)
      change Passes _ _ _ _
      rw [Node.script, Cursor.next?_eq_some_iff.mpr spans]
      simp only [member, Outcome.check_true]
      exact .done (.matched (spans.whole_eq.trans whole) rfl left.symm)
  | otherChars differs =>
      change Passes _ _ _ _
      rw [Node.script]
      cases next : cursor.next? with
      | none => exact .done .missed
      | some pair =>
          have spans := Cursor.next?_eq_some_iff.mp next
          have other := differs pair.1 (by rw [← located, spans.1]; rfl)
          simp only [other, Outcome.check_false]
          exact .done .missed
  | matched member split inside =>
      subst located
      exact .matched whole (.matched member split inside) fun _ _ shown => .done shown
  | missed member inside =>
      subst located
      exact .unmatched whole (.missed member inside) (.done .missed)
  | cons head tail inductionHead inductionTail =>
      obtain ⟨plainHead, plainTail⟩ := Bool.and_eq_true_iff.mp traceable
      change Passes _ _ _ _
      rw [Node.script, Node.scriptAll]
      refine (inductionHead plainHead _ whole located).passes.andThen_matched
        fun trees stop shown => ?_
      cases shown with
      | matched inside made left =>
          have later := (inductionTail plainTail production inside left.symm).passes
          rw [Node.script] at later
          refine later.ofMatch fun others last shown => ?_
          cases shown with
          | matched inside made' left =>
              exact .done (.matched inside (by rw [List.map_append, ← made, ← made']) left)
  | stop head induction =>
      change Passes _ _ _ _
      rw [Node.script, Node.scriptAll]
      exact (induction (Bool.and_eq_true_iff.mp traceable).1 _ whole located).passes.ofMiss
        (.done .missed)
  | broken head tail inductionHead inductionTail =>
      obtain ⟨plainHead, plainTail⟩ := Bool.and_eq_true_iff.mp traceable
      change Passes _ _ _ _
      rw [Node.script, Node.scriptAll]
      refine (inductionHead plainHead _ whole located).passes.andThen_matched
        fun trees stop shown => ?_
      cases shown with
      | matched inside _ left =>
          have later := (inductionTail plainTail production inside left.symm).passes
          rw [Node.script] at later
          exact later.ofMiss (.done .missed)
  | chosen head induction =>
      change Passes _ _ _ _
      rw [Node.script, Node.scriptFirst]
      exact (induction (Bool.and_eq_true_iff.mp traceable).1 _ whole located).passes.ofMatch
        fun _ _ shown => .done shown
  | next head tail inductionHead inductionTail =>
      obtain ⟨plainHead, plainTail⟩ := Bool.and_eq_true_iff.mp traceable
      change Passes _ _ _ _
      rw [Node.script, Node.scriptFirst]
      have later := (inductionTail plainTail production whole located).passes
      rw [Node.script] at later
      exact (inductionHead plainHead _ whole located).passes.andThen_unmatched later
  | present once induction =>
      change Passes _ _ _ _
      refine (induction (Bool.and_eq_true_iff.mp traceable).1 _ whole located).passes.ofMatch
        fun trees stop shown => ?_
      cases shown with
      | matched inside made left => exact .done (.matched inside (by simpa using made) left)
  | absent misses induction =>
      change Passes _ _ _ _
      exact (induction (Bool.and_eq_true_iff.mp traceable).1 _ whole located).passes.ofMiss
        (.done (.matched whole rfl located.symm))
  | exhausted misses induction =>
      subst located
      exact .exhausted whole (induction (Bool.and_eq_true_iff.mp traceable).1 _ whole rfl).passes
  | idle once induction =>
      subst located
      obtain ⟨plain, form⟩ := Bool.and_eq_true_iff.mp traceable
      exact .idle (induction plain _ whole rfl).passes whole (least_le_one form)
  | again head moves tail inductionHead inductionTail =>
      subst located
      obtain ⟨plain, form⟩ := Bool.and_eq_true_iff.mp traceable
      have fewer := head.length_lt moves
      refine .again (inductionHead plain _ whole rfl).passes fewer whole (least_le_one form)
        fun stop inside left => ?_
      exact inductionTail (Bool.and_eq_true_iff.mpr ⟨plain, rfl⟩) _ inside left
  | notAhead misses induction =>
      change Passes _ _ _ _
      rw [Node.script]
      exact (induction (Bool.and_eq_true_iff.mp traceable).1 _ whole located).passes.ofMiss
        (.done (.matched whole rfl located.symm))
  | isAhead inside induction =>
      change Passes _ _ _ _
      rw [Node.script]
      exact (induction (Bool.and_eq_true_iff.mp traceable).1 _ whole located).passes.ofMatch
        fun _ _ _ => .done .missed

/-! ### What a run explores -/

/-- The spots known to read nothing, once one more has been read. -/
def Spot.learn (spot : Spot) (reading : Reading) (known : Set Spot) : Set Spot :=
  match reading with
  | some _ => known
  | none => insert spot known

/-- A run with some room for nested calls gets past the spots of a list one after the other. It
does not enter those known to read nothing, and adds those that it finds out about. -/
inductive Explores : ℕ → Set Spot → List Spot → Set Spot → Prop where
  | nil {room : ℕ} {known : Set Spot} : Explores room known [] known
  | known {room : ℕ} {known after : Set Spot} {spot : Spot} {spots : List Spot}
      (among : spot ∈ known) (later : Explores room known spots after) :
      Explores room known (spot :: spots) after
  | enter {room : ℕ} {known inner after : Set Spot} {spot : Spot} {asked spots : List Spot}
      {reading : Reading} (new : spot ∉ known) (holds : spot.Holds asked reading)
      (inside : Explores room known asked inner)
      (later : Explores (room + 1) (spot.learn reading inner) spots after) :
      Explores (room + 1) known (spot :: spots) after

/-- The production at a spot reads nothing. -/
def Spot.Fails (spot : Spot) : Prop :=
  ∃ asked, spot.Holds asked none

/-- All spots of a set read nothing. -/
def Refuted (known : Set Spot) : Prop :=
  ∀ spot ∈ known, spot.Fails

section Explores

variable {room : ℕ} {known after : Set Spot} {spot : Spot} {spots : List Spot}

theorem refuted_learn (refuted : Refuted known) (holds : spot.Holds asked reading) :
    Refuted (spot.learn reading known) := by
  cases reading with
  | some => exact refuted
  | none =>
      rintro other (rfl | among)
      · exact ⟨_, holds⟩
      · exact refuted other among

theorem Explores.refuted (explores : Explores room known spots after) (refuted : Refuted known) :
    Refuted after := by
  induction explores with
  | nil => exact refuted
  | known _ _ induction => exact induction refuted
  | enter _ holds _ _ inductionInside inductionLater =>
      exact inductionLater (refuted_learn (inductionInside refuted) holds)

private theorem Explores.unique {after' : Set Spot} (explores : Explores room known spots after)
    (explores' : Explores room known spots after') : after = after' := by
  induction explores generalizing after' with
  | nil =>
      cases explores'
      rfl
  | known among _ induction =>
      cases explores' with
      | known _ later => exact induction later
      | enter new => exact absurd among new
  | enter new holds _ _ inductionInside inductionLater =>
      cases explores' with
      | known among => exact absurd among new
      | enter _ holds' inside later =>
          obtain ⟨rfl, rfl⟩ := holds.unique holds'
          obtain rfl := inductionInside inside
          exact inductionLater later

theorem explores_cons : Explores room known (spot :: spots) after ↔
    ∃ middle, Explores room known [spot] middle ∧ Explores room middle spots after := by
  constructor
  · intro explores
    cases explores with
    | known among later => exact ⟨known, .known among .nil, later⟩
    | enter new holds inside later => exact ⟨_, .enter new holds inside .nil, later⟩
  · rintro ⟨middle, first, later⟩
    cases first with
    | known among none =>
        cases none
        exact .known among later
    | enter new holds inside none =>
        cases none
        exact .enter new holds inside later

end Explores

/-! ### Runs explore -/

/-- The calls that a memory holds as failed are the known spots of a text. -/
def Remembers (source : List Char) (memory : Memory) (known : Set Spot) : Prop :=
  ∀ (name : String) (cursor : Cursor), cursor.whole = source →
    (memory.failures.contains ⟨name, .empty, cursor.offset⟩ = true ↔ ⟨name, cursor.rest⟩ ∈ known)

/-- A run explores the spots that it asks for, or exceeds the limit as nothing explores them. -/
def Goes (source : List Char) (limit room : ℕ) (known : Set Spot) (asked : List Spot)
    (reading : Reading) (reply : Reply) : Prop :=
  (∃ after, Explores room known asked after ∧ Remembers source reply.2 after ∧
      Shows source reading reply.1) ∨
    ((∀ after, ¬ Explores room known asked after) ∧
      reply.1 = .failed (.recursionLimitExceeded limit))

/-- An evaluation of calls goes as its calls of the dialect explore. -/
def CallsGo (source : List Char) (limit room : ℕ) (calls : Ask → Memory → Reply) : Prop :=
  ∀ name cursor reading known memory, cursor.whole = source →
    Traces (.call name) cursor.rest [⟨name, cursor.rest⟩] reading → Refuted known →
    Remembers source memory known →
    Goes source limit room known [⟨name, cursor.rest⟩] reading
      (calls ⟨name, [], .empty, cursor⟩ memory)

section Runs

variable {limit room : ℕ} {known : Set Spot} {memory : Memory}

/-- Runs one after the other explore one after the other. -/
theorem Goes.cons {spot : Spot} {middle : Set Spot} {outcome : Outcome} {after : Memory}
    (first : Explores room known [spot] middle)
    (later : Goes source limit room middle asked reading (outcome, after)) :
    Goes source limit room known (spot :: asked) reading (outcome, after) := by
  refine later.imp (fun ⟨last, explores, rest⟩ => ?_) fun ⟨stuck, exceeded⟩ => ⟨?_, exceeded⟩
  · exact ⟨last, explores_cons.mpr ⟨middle, first, explores⟩, rest⟩
  · intro last explores
    obtain ⟨other, first', explores⟩ := explores_cons.mp explores
    obtain rfl := first.unique first'
    exact stuck last explores

theorem Passes.goes {calls : Ask → Memory → Reply} (go : CallsGo source limit room calls)
    {script : Script} (passes : Passes source script asked reading) (refuted : Refuted known)
    (remembers : Remembers source memory known) :
    Goes source limit room known asked reading (script.run calls memory) := by
  induction passes generalizing known memory with
  | done shown => exact .inl ⟨known, .nil, remembers, shown⟩
  | @note production offset _ _ _ _ induction =>
      have remembers : Remembers source (memory.log (.zeroWidth production offset)) known :=
        remembers
      exact induction refuted remembers
  | @matched name cursor _ _ _ _ _ whole traces _ induction =>
      have goes := go _ _ _ _ _ whole traces refuted remembers
      rw [Script.run]
      match reply : calls ⟨name, [], .empty, cursor⟩ memory with
      | (outcome, between) =>
        rw [reply] at goes
        rcases goes with ⟨middle, explores, remembers, shown⟩ | ⟨stuck, exceeded⟩
        · cases shown with
          | matched inside made left =>
              exact .cons explores
                (induction _ _ (.matched inside made left) (explores.refuted refuted) remembers)
        · obtain rfl : outcome = _ := exceeded
          exact .inr ⟨fun after explores => stuck _ (explores_cons.mp explores).choose_spec.1, rfl⟩
  | @unmatched name cursor _ _ _ _ whole traces _ induction =>
      have goes := go _ _ _ _ _ whole traces refuted remembers
      rw [Script.run]
      match reply : calls ⟨name, [], .empty, cursor⟩ memory with
      | (outcome, between) =>
        rw [reply] at goes
        rcases goes with ⟨middle, explores, remembers, shown⟩ | ⟨stuck, exceeded⟩
        · cases shown with
          | missed => exact .cons explores (induction (explores.refuted refuted) remembers)
        · obtain rfl : outcome = _ := exceeded
          exact .inr ⟨fun after explores => stuck _ (explores_cons.mp explores).choose_spec.1, rfl⟩

/-- The setting that texts of the dialect are read with, under a limit. -/
def remembering (limit : ℕ) : Setting := { grammar := grammar, limit := limit }

theorem limit_remembering (limit : ℕ) : (remembering limit).limit = limit := rfl

theorem remembers_fresh (source : List Char) : Remembers source .fresh ∅ := by
  intro name cursor _
  simp [Memory.fresh]

private theorem Remembers.remember {name : String} {cursor : Cursor}
    (remembers : Remembers source memory known) (whole : cursor.whole = source) :
    Remembers source (memory.remember ⟨name, .empty, cursor.offset⟩)
      (insert ⟨name, cursor.rest⟩ known) := by
  intro other place inside
  have here : place.offset = cursor.offset ↔ place.rest = cursor.rest := by
    constructor
    · intro same
      rw [Cursor.eq_of_offset_eq (inside.trans whole.symm) same]
    · intro same
      rw [Cursor.eq_of_rest_eq (inside.trans whole.symm) same]
  simp only [Memory.remember, Std.HashSet.contains_insert, Bool.or_eq_true, beq_iff_eq,
    Call.mk.injEq, true_and, Set.mem_insert_iff, Spot.mk.injEq, remembers other place inside]
  grind

section Calls

variable {name : String} {cursor : Cursor} {body : Node} {outcome : Outcome}

/-- A call shows what it reads once its body does. -/
theorem shows_enclose {result : Reading} (whole : cursor.whole = source)
    (member : (name, body) ∈ rules) (inside : Traces body cursor.rest asked reading)
    (shown : Shows source reading outcome)
    (traces : Traces (.reference name []) cursor.rest [⟨name, cursor.rest⟩] result) :
    Shows source result (outcome.enclose ⟨name, .empty, cursor.offset⟩) := by
  cases traces with
  | missed member' inside' =>
      obtain rfl := body_unique member member'
      obtain ⟨-, rfl⟩ := inside.unique inside'
      cases shown
      exact .missed
  | matched member' split inside' =>
      obtain rfl := body_unique member member'
      obtain ⟨-, rfl⟩ := inside.unique inside'
      cases shown with
      | matched whole' made left =>
          obtain ⟨last, spans, behind⟩ := Cursor.exists_spans split
          obtain rfl := Cursor.eq_of_rest_eq ((spans.whole_eq.trans whole).trans whole'.symm)
            (behind.trans left)
          subst whole
          refine .matched whole' ?_ left
          simp only [List.map_cons, List.map_nil, Part.ofTree, Part.ofTrees_eq_map, made,
            spans.slice?_eq, Option.getD_some]

private theorem remembers_conclude {between : Memory} {inner : Set Spot}
    (whole : cursor.whole = source) (shown : Shows source reading outcome)
    (remembers : Remembers source between inner) :
    Remembers source
      ((remembering limit).conclude ⟨name, .empty, cursor.offset⟩ (outcome, between)).2
      ((⟨name, cursor.rest⟩ : Spot).learn reading inner) := by
  cases shown with
  | matched => exact remembers
  | missed =>
      have remembers : Remembers source (between.log (.failure ⟨name, .empty, cursor.offset⟩))
          inner := remembers
      exact remembers.remember whole

end Calls

/-- A call of a run with a memory explores its spot. -/
theorem callsGo_invoke (source : List Char) (limit : ℕ) (caller : String) (room : ℕ) :
    CallsGo source limit room (((remembering limit).invoke room).reply caller) := by
  induction room using Nat.strongRecOn generalizing caller with
  | _ room induction =>
  intro name cursor reading known memory whole traces refuted remembers
  obtain ⟨body, inner, read, member, inside⟩ := traces.exists_body
  have found : (remembering limit).grammar.get? name = some { body := body } := get?_of_mem member
  change Goes _ _ _ _ _ _ ((remembering limit).invoke room caller name [] .empty cursor memory)
  by_cases among : ⟨name, cursor.rest⟩ ∈ known
  · obtain ⟨_, holds⟩ := refuted _ among
    obtain ⟨-, rfl⟩ := holds.unique ⟨body, member, inside⟩
    rw [Setting.invoke_known found rfl rfl ((remembers name cursor whole).mpr among)]
    exact .inl ⟨known, .known among .nil, remembers,
      shows_enclose whole member inside .missed traces⟩
  · have unknown : memory.failures.contains ⟨name, .empty, cursor.offset⟩ = false := by
      rw [← Bool.not_eq_true, remembers name cursor whole]
      exact among
    cases room with
    | zero =>
        rw [Setting.invoke_zero found rfl rfl unknown]
        refine .inr ⟨fun after explores => ?_, rfl⟩
        cases explores with
        | known known => exact among known
    | succ room =>
        have passes := (inside.passes (isTraceable_of_mem member) name whole rfl).passes
        have remembers : Remembers source (memory.log (.enter ⟨name, .empty, cursor.offset⟩))
            known := remembers
        have goes := passes.goes (induction room (Nat.lt_succ_self room) name) refuted remembers
        rw [Setting.invoke_succ found rfl rfl unknown, Node.evaluate_eq_run]
        match reply : (body.script name .empty cursor).run
            (((remembering limit).invoke room).reply name)
            (memory.log (.enter ⟨name, .empty, cursor.offset⟩)) with
        | (outcome, between) =>
          rw [reply] at goes
          rcases goes with ⟨after, explores, remembers, shown⟩ | ⟨stuck, exceeded⟩
          · refine .inl ⟨_, .enter among ⟨body, member, inside⟩ explores .nil,
              remembers_conclude whole shown remembers, ?_⟩
            rw [Setting.conclude_fst]
            exact shows_enclose whole member inside shown traces
          · obtain rfl : outcome = _ := exceeded
            refine .inr ⟨fun after explores => ?_, rfl⟩
            cases explores with
            | known known => exact among known
            | enter _ holds explores =>
                obtain ⟨rfl, -⟩ := holds.unique ⟨body, member, inside⟩
                exact stuck _ explores

end Runs

end Dialect

end Bnf

end ParametricGrammar
