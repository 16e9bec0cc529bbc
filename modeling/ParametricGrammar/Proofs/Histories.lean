import Mathlib.Data.List.Forall2
import ParametricGrammar.Proofs.Completeness
/-!
# Sessions with a history

A session answers one query after the other and keeps what it remembers. Whatever it was asked
before, what it remembers stays sound. So its answers are those of the semantics, and those that
each query would get on its own without a memory.
-/

namespace ParametricGrammar

/-- One evaluation asked of a session. -/
structure Query where
  offset : Nat
  parameters : Parameters
  node : Node

namespace Session

/-- A session that was not asked anything. -/
def fresh (setting : Setting) (text : List Char) : Session := { setting := setting, text := text }

/-- The answer to a query, and the session after it. -/
def ask (session : Session) (query : Query) : Outcome × Session :=
  session.parse query.offset query.parameters query.node

/-- The session after some queries. -/
def after (session : Session) : List Query → Session
  | [] => session
  | query :: queries => (session.ask query).2.after queries

/-- The answers to some queries, one after the other. -/
def answers (session : Session) : List Query → List Outcome
  | [] => []
  | query :: queries => (session.ask query).1 :: (session.ask query).2.answers queries

end Session

namespace Setting

variable {setting : Setting} {text : List Char} {offset : Nat} {parameters : Parameters}
  {node : Node} {memory : Memory}

/-- Evaluation at an offset keeps a memory sound, and its outcome is that of the semantics unless
the limit was exceeded. -/
theorem parse_sound (sound : memory.Sound setting.grammar text) :
    (setting.parse text offset parameters node memory).2.Sound setting.grammar text ∧
      ((setting.parse text offset parameters node memory).1 =
          .failed (.recursionLimitExceeded setting.limit) ∨
        Parses setting.grammar text offset parameters node
          (setting.parse text offset parameters node memory).1) := by
  unfold parse
  cases located : Cursor.at? text offset with
  | none =>
      refine ⟨sound, .inr (.nowhere fun cursor whole same => ?_)⟩
      rw [Cursor.at?_eq_some_iff.mpr ⟨whole, same⟩] at located
      cases located
  | some cursor =>
      obtain ⟨rfl, rfl⟩ := Cursor.at?_eq_some_iff.mp located
      have answers := node.evaluate_answers (invoke_answers setting setting.limit) outside
        parameters cursor memory sound
      exact ⟨answers.memory,
        answers.outcome.imp_right fun derives => .place rfl rfl (derives.mono le_top)⟩

/-- A memory never changes an outcome that is reached without one. -/
theorem parse_eq_of_uncached {grammar : Grammar} {limit : Nat}
    (sound : memory.Sound grammar text) (cached : Bool) {alone : Outcome}
    (uncached : (parse ⟨grammar, false, limit⟩ text offset parameters node .fresh).1 = alone)
    (within : alone ≠ .failed (.recursionLimitExceeded limit)) :
    (parse ⟨grammar, cached, limit⟩ text offset parameters node memory).1 = alone := by
  unfold parse at uncached ⊢
  cases located : Cursor.at? text offset with
  | none =>
      rw [located] at uncached
      exact uncached
  | some cursor =>
      rw [located] at uncached
      obtain ⟨rfl, rfl⟩ := Cursor.at?_eq_some_iff.mp located
      have answers := node.evaluate_answers
        (invoke_answers ⟨grammar, false, limit⟩ limit) outside parameters cursor .fresh
        Memory.sound_fresh
      have derives : Derives grammar limit outside (.node node) parameters cursor alone := by
        rw [← uncached] at within ⊢
        exact answers.outcome.resolve_left within
      exact derives.reproduces ⟨grammar, cached, limit⟩ limit le_rfl memory sound

/-- Nor does it change whether a production covers a text. -/
theorem parseAll_eq_of_uncached {grammar : Grammar} {limit : Nat} {root : String} (cached : Bool)
    {result : Except RunError Tree}
    (uncached : (parseAll ⟨grammar, false, limit⟩ root text).1 = result)
    (within : result ≠ .error (.recursionLimitExceeded limit)) :
    (parseAll ⟨grammar, cached, limit⟩ root text).1 = result := by
  have answers := invoke_answers ⟨grammar, false, limit⟩ limit outside root [] .empty
    (.start text) .fresh Memory.sound_fresh
  have same : (invoke ⟨grammar, cached, limit⟩ limit outside root [] .empty (.start text)
      .fresh).1 = (invoke ⟨grammar, false, limit⟩ limit outside root [] .empty (.start text)
        .fresh).1 := by
    rcases answers.outcome with exceeded | derives
    · refine absurd ?_ within
      rw [← uncached]
      simp only [parseAll, exceeded]
    · exact derives.reproduces ⟨grammar, cached, limit⟩ limit le_rfl .fresh Memory.sound_fresh
  rw [← uncached]
  simp only [parseAll, same]

end Setting

namespace Session

/-- What a session remembers is sound for its text. -/
def Sound (session : Session) : Prop :=
  session.memory.Sound session.setting.grammar session.text

theorem sound_fresh (setting : Setting) (text : List Char) : (fresh setting text).Sound :=
  Memory.sound_fresh

variable {session : Session}

@[simp] theorem setting_ask (query : Query) : (session.ask query).2.setting = session.setting := rfl

@[simp] theorem text_ask (query : Query) : (session.ask query).2.text = session.text := rfl

theorem Sound.ask (sound : session.Sound) (query : Query) : (session.ask query).2.Sound :=
  (Setting.parse_sound sound).1

theorem Sound.answer (sound : session.Sound) (query : Query) :
    (session.ask query).1 = .failed (.recursionLimitExceeded session.setting.limit) ∨
      Parses session.setting.grammar session.text query.offset query.parameters query.node
        (session.ask query).1 :=
  (Setting.parse_sound sound).2

theorem Sound.after (sound : session.Sound) (queries : List Query) :
    (session.after queries).Sound := by
  induction queries generalizing session with
  | nil => exact sound
  | cons query queries induction => exact induction (sound.ask query)

@[simp] theorem setting_after (queries : List Query) :
    (session.after queries).setting = session.setting := by
  induction queries generalizing session with
  | nil => rfl
  | cons query queries induction => exact induction.trans (setting_ask query)

@[simp] theorem text_after (queries : List Query) :
    (session.after queries).text = session.text := by
  induction queries generalizing session with
  | nil => rfl
  | cons query queries induction => exact induction.trans (text_ask query)

/-- Evaluation agrees with the semantics: what a session answers after any history, other than
that the limit is exceeded, is the meaning of the query; and every meaning is what fresh sessions
answer from some limit on. -/
theorem answers_agree_with_semantics :
    (∀ (setting : Setting) (text : List Char) (earlier : List Query) (query : Query),
      (((fresh setting text).after earlier).ask query).1 =
          .failed (.recursionLimitExceeded setting.limit) ∨
        Parses setting.grammar text query.offset query.parameters query.node
          (((fresh setting text).after earlier).ask query).1) ∧
    (∀ (grammar : Grammar) (text : List Char) (query : Query) (outcome : Outcome),
      Parses grammar text query.offset query.parameters query.node outcome →
        ∃ least : Nat, ∀ limit ≥ least, ∀ cached : Bool,
          ((fresh ⟨grammar, cached, limit⟩ text).ask query).1 = outcome) := by
  refine ⟨fun setting text earlier query => ?_, fun grammar text query outcome parses => ?_⟩
  · have answer := ((sound_fresh setting text).after earlier).answer query
    rw [setting_after, text_after] at answer
    exact answer
  · cases parses with
    | @place cursor _ whole located derives =>
        obtain ⟨least, finite⟩ := derives.exists_depth
        refine ⟨least, fun limit ge cached => ?_⟩
        have found := Cursor.at?_eq_some_iff.mpr ⟨whole, located⟩
        have reproduced := finite.reproduces ⟨grammar, cached, limit⟩ limit
          (by exact_mod_cast ge) .fresh Memory.sound_fresh
        simp only [ask, parse, Setting.parse, fresh, found]
        exact reproduced
    | nowhere missing =>
        refine ⟨0, fun limit _ cached => ?_⟩
        have nowhere : Cursor.at? text query.offset = none := by
          rw [Option.eq_none_iff_forall_ne_some]
          intro cursor found
          obtain ⟨whole, located⟩ := Cursor.at?_eq_some_iff.mp found
          exact missing cursor whole located
        simp only [ask, parse, Setting.parse, fresh, nowhere]

/-- A memory of failures is transparent over the whole lifetime of a session: each query is
answered as it would be on its own without a memory, whenever that answer stays within the limit. -/
theorem answers_eq_uncached (grammar : Grammar) (limit : Nat) (text : List Char)
    (queries : List Query) :
    List.Forall₂
      (fun query answer =>
        ((fresh ⟨grammar, false, limit⟩ text).ask query).1 ≠
            .failed (.recursionLimitExceeded limit) →
          answer = ((fresh ⟨grammar, false, limit⟩ text).ask query).1)
      queries ((fresh ⟨grammar, true, limit⟩ text).answers queries) := by
  have general : ∀ session : Session, session.Sound → session.setting = ⟨grammar, true, limit⟩ →
      session.text = text →
      List.Forall₂
        (fun query answer =>
          ((fresh ⟨grammar, false, limit⟩ text).ask query).1 ≠
              .failed (.recursionLimitExceeded limit) →
            answer = ((fresh ⟨grammar, false, limit⟩ text).ask query).1)
        queries (session.answers queries) := by
    induction queries with
    | nil => exact fun _ _ _ _ => .nil
    | cons query queries induction =>
        intro session sound setting same
        refine .cons (fun within => ?_) (induction _ (sound.ask query) setting same)
        obtain ⟨_, _, memory⟩ := session
        subst setting same
        exact Setting.parse_eq_of_uncached sound true rfl within
  exact general _ (sound_fresh _ _) rfl rfl

end Session

end ParametricGrammar
