import Mathlib.Data.List.Infix
import ParametricGrammar.Proofs.Dialect.Seams
/-!
# What the rest of a text makes no difference to

What is read inside of brackets, quotes and closed comments is the same whatever stands behind the
text. Each production that brackets enclose sees its closing bracket before the end of the text, and
single characters of code are compared only where something lies ahead.
-/

namespace ParametricGrammar

namespace Bnf

namespace Dialect

variable {name text : String} {node body : Node} {nodes : List Node} {ahead tail : List Char}
  {asked : List Spot} {parts : List Part} {reading : Reading} {spot : Spot} {low : Option ℤ}

/-! ### Texts with something behind them -/

/-- The spot in the text that has a tail behind it. -/
def Spot.append (tail : List Char) (spot : Spot) : Spot := ⟨spot.name, spot.ahead ++ tail⟩

/-- What is read in the text that has a tail behind it. -/
def Reading.append (tail : List Char) (reading : Reading) : Reading :=
  reading.map fun read => (read.1, read.2 ++ tail)

private theorem Reading.append_prepend (tail : List Char) (parts : List Part) (reading : Reading) :
    Reading.append tail (Reading.prepend parts reading) =
      Reading.prepend parts (Reading.append tail reading) := by
  cases reading <;> rfl

/-- Something lies ahead of a production, and the balance is what it needs inside of brackets. -/
structure Inner (spot : Spot) : Prop where
  above : Above inside spot
  more : spot.ahead ≠ []

/-- An expression reads the same in the text that has a tail behind it, and asks for the same, which
is all inside of brackets. -/
structure Appends (tail : List Char) (node : Node) (ahead : List Char) (asked : List Spot)
    (reading : Reading) : Prop where
  inner : ∀ spot ∈ asked, Inner spot
  traces : Traces node (ahead ++ tail) (asked.map (Spot.append tail)) (Reading.append tail reading)

namespace Appends

theorem stop (head : Appends tail node ahead asked none) :
    Appends tail (.sequence (node :: nodes)) ahead asked none :=
  ⟨head.inner, .stop head.traces⟩

private theorem cons {before behind : List Spot} {middle : List Char}
    (head : Appends tail node ahead before (some (parts, middle)))
    (later : Appends tail (.sequence nodes) middle behind reading) :
    Appends tail (.sequence (node :: nodes)) ahead (before ++ behind)
      (Reading.prepend parts reading) where
  inner := List.forall_mem_append.mpr ⟨head.inner, later.inner⟩
  traces := by
    rw [List.map_append, Reading.append_prepend]
    exact traces_sequence_cons.mpr (.inr ⟨_, _, _, _, _, head.traces, later.traces, rfl, rfl⟩)

private theorem next {before behind : List Spot} (head : Appends tail node ahead before none)
    (later : Appends tail (.first nodes) ahead behind reading) :
    Appends tail (.first (node :: nodes)) ahead (before ++ behind) reading where
  inner := List.forall_mem_append.mpr ⟨head.inner, later.inner⟩
  traces := by
    rw [List.map_append]
    exact .next head.traces later.traces

private theorem again {before behind : List Spot} {middle rest : List Char} {more : List Part}
    {least : UInt32} (head : Appends tail node ahead before (some (parts, middle)))
    (moves : middle ≠ ahead)
    (later : Appends tail (.zeroOrMore node) middle behind (some (more, rest))) :
    Appends tail (.repeated node (.fixed least) none) ahead (before ++ behind)
      (some (parts ++ more, rest)) where
  inner := List.forall_mem_append.mpr ⟨head.inner, later.inner⟩
  traces := by
    rw [List.map_append]
    exact .again head.traces (fun same => moves (List.append_cancel_right same)) later.traces

private theorem exhausted {least : UInt32} (misses : Appends tail node ahead asked none) :
    Appends tail (.repeated node (.fixed least) none) ahead asked
      (if least = 0 then some ([], ahead) else none) where
  inner := misses.inner
  traces := by
    have stops : Traces (.repeated node (.fixed least) none) _ _ _ := .exhausted misses.traces
    by_cases none : least = 0 <;> simpa [none, Reading.append] using stops

/-- A sequence is read alike if its head is, and what comes behind that. -/
theorem of_sequence (traces : Traces (.sequence (node :: nodes)) ahead asked reading)
    (head : ∀ {asked reading}, Traces node ahead asked reading →
      Appends tail node ahead asked reading)
    (later : ∀ {before parts middle asked reading},
      Traces node ahead before (some (parts, middle)) →
      Traces (.sequence nodes) middle asked reading →
        Appends tail (.sequence nodes) middle asked reading) :
    Appends tail (.sequence (node :: nodes)) ahead asked reading := by
  obtain ⟨first, rfl⟩ | ⟨_, _, _, _, _, first, row, rfl, rfl⟩ := traces_sequence_cons.mp traces
  · exact (head first).stop
  · exact (head first).cons (later first row)

/-- A choice is read alike if each alternative is. -/
theorem of_first (traces : Traces (.first nodes) ahead asked reading)
    (each : ∀ node ∈ nodes, ∀ {asked reading}, Traces node ahead asked reading →
      Appends tail node ahead asked reading) :
    Appends tail (.first nodes) ahead asked reading := by
  induction nodes generalizing asked with
  | nil =>
      obtain ⟨rfl, rfl⟩ := traces_first_nil.mp traces
      exact ⟨by simp, .noOther⟩
  | cons node nodes induction =>
      rw [List.forall_mem_cons] at each
      obtain ⟨read, rfl, head⟩ | ⟨_, _, head, later, rfl⟩ := traces_first_cons.mp traces
      · exact ⟨(each.1 head).inner, .chosen (each.1 head).traces⟩
      · exact (each.1 head).next (induction later each.2)

private theorem nil (traces : Traces (.sequence []) ahead asked reading) :
    Appends tail (.sequence []) ahead asked reading := by
  obtain ⟨rfl, rfl⟩ := traces_sequence_nil.mp traces
  exact ⟨by simp, .nil⟩

end Appends

/-! ### Characters and literals -/

/-- Whether no beginning of a literal but the whole of it changes the balance upwards. -/
def isWhole (text : String) : Bool :=
  text.toList.inits.all fun start => start = text.toList || (tally start).all (· ≤ 0)

private theorem AtLeast.ne_nil (floor : AtLeast (some 1) ahead) : ahead ≠ [] := by
  rintro rfl
  obtain ⟨amount, here, least⟩ := floor 1 rfl
  cases here
  omega

private theorem appends_chars {set : CharSet} (more : ahead ≠ [])
    (traces : Traces (.chars set) ahead asked reading) :
    Appends tail (.chars set) ahead asked reading := by
  obtain ⟨rfl, ⟨char, rest, rfl, member, rfl⟩ | ⟨differs, rfl⟩⟩ := traces_chars.mp traces
  · exact ⟨by simp, .chars member⟩
  · obtain ⟨char, ahead, rfl⟩ := List.exists_cons_of_ne_nil more
    exact ⟨by simp, .otherChars differs⟩

private theorem appends_literal
    (differs : ¬ text.toList <+: ahead → ¬ text.toList <+: ahead ++ tail)
    (traces : Traces (.literal text) ahead asked reading) :
    Appends tail (.literal text) ahead asked reading := by
  obtain ⟨rfl, ⟨rest, rfl, rfl⟩ | ⟨other, rfl⟩⟩ := traces_literal.mp traces
  · exact ⟨by simp, .literal (List.append_assoc ..)⟩
  · exact ⟨by simp, .otherLiteral (differs other)⟩

theorem appends_char (single : text.toList.length = 1) (more : ahead ≠ [])
    (traces : Traces (.literal text) ahead asked reading) :
    Appends tail (.literal text) ahead asked reading := by
  refine appends_literal (fun differs spelled => ?_) traces
  obtain ⟨sign, same⟩ := List.length_eq_one_iff.mp single
  obtain ⟨char, ahead, rfl⟩ := List.exists_cons_of_ne_nil more
  rw [same] at differs spelled
  obtain ⟨rest, spelled⟩ := spelled
  cases spelled
  exact differs ⟨ahead, rfl⟩

/-- Where the balance closes brackets, no literal goes on behind the text. -/
theorem appends_word (whole : isWhole text = true) (floor : AtLeast (some 1) ahead)
    (traces : Traces (.literal text) ahead asked reading) :
    Appends tail (.literal text) ahead asked reading := by
  refine appends_literal (fun differs spelled => ?_) traces
  rcases List.prefix_or_prefix_of_prefix spelled (List.prefix_append ahead tail) with short | long
  · exact differs short
  · have start := List.all_eq_true.mp whole ahead ((List.mem_inits ..).mpr long)
    obtain ⟨amount, here, least⟩ := floor 1 rfl
    have here : tally ahead = some amount := here
    rw [here] at start
    simp only [Bool.or_eq_true, decide_eq_true_eq, Option.all_some] at start
    rcases start with same | low
    · exact differs (same ▸ List.prefix_rfl)
    · omega

/-! ### Quotes and comments -/

/-- At places of a kind an expression is read alike if a tail stands behind the text, and it leads
to such places only. -/
def Keeps (tail : List Char) (goes : List Char → Prop) (node : Node) : Prop :=
  ∀ ⦃ahead asked reading⦄, goes ahead → Traces node ahead asked reading →
    Appends tail node ahead asked reading ∧ ∀ read, reading = some read → goes read.2

variable {goes : List Char → Prop}

private theorem Keeps.repeated {least : UInt32} (keeps : Keeps tail goes node) :
    Keeps tail goes (.repeated node (.fixed least) none) := by
  intro ahead asked reading here traces
  generalize same : Node.repeated node (.fixed least) none = other at traces
  induction traces generalizing least with
  | exhausted misses =>
      cases same
      refine ⟨(keeps here misses).1.exhausted, fun read stops => ?_⟩
      split at stops <;> cases stops
      exact here
  | idle once =>
      cases same
      obtain ⟨appends, there⟩ := keeps here once
      exact ⟨⟨appends.inner, .idle appends.traces⟩, there⟩
  | again head moves _ _ induction =>
      cases same
      obtain ⟨appends, there⟩ := keeps here head
      obtain ⟨later, last⟩ := induction (there _ rfl) rfl
      refine ⟨appends.again moves later, fun read stops => ?_⟩
      cases stops
      have there := last _ rfl
      exact there
  | _ => cases same

private theorem keeps_line {set : CharSet} {depth : ℕ} {leaves : Leaves}
    (letter : Letter depth (.chars set) (fun char => !Piece.breaksLine char) leaves) :
    Keeps tail (fun ahead => ∃ amount ∈ balance .line ahead, 1 ≤ amount) (.chars set) := by
  rintro ahead asked reading ⟨amount, here, least⟩ traces
  have more : ahead ≠ [] := by
    rintro rfl
    cases here
    omega
  refine ⟨appends_chars more traces, fun read stops => ?_⟩
  subst stops
  obtain ⟨char, rest, _, rfl, holds, same⟩ | ⟨-, none⟩ := reads_of_letter letter rfl traces
  · cases same
    have inline : Piece.breaksLine char = false := by simpa using holds
    exact ⟨amount, by simpa [balance, inline] using here, least⟩
  · cases none

/-- The sign that closes a comment does not go on behind the text. -/
theorem appends_closing (closed : balance .block ahead ≠ none)
    (traces : Traces (.literal "*/") ahead asked reading) :
    Appends tail (.literal "*/") ahead asked reading := by
  refine appends_literal (fun differs spelled => ?_) traces
  rcases List.prefix_or_prefix_of_prefix spelled (List.prefix_append ahead tail) with short | long
  · exact differs short
  · have start : ahead ∈ [[], ['*'], ['*', '/']] := (List.mem_inits ..).mpr long
    simp only [List.mem_cons, List.not_mem_nil, or_false] at start
    rcases start with rfl | rfl | rfl
    · exact closed rfl
    · exact closed rfl
    · exact differs List.prefix_rfl

private theorem keeps_commentStep :
    Keeps tail (fun ahead => balance .block ahead ≠ none) commentStep := by
  intro ahead asked reading closed traces
  refine ⟨.of_sequence traces ?_ ?_, ?_⟩
  · intro asked reading guard
    obtain ⟨misses, rfl⟩ | ⟨_, found, rfl⟩ := traces_notAhead.mp guard
    · have appends : Appends tail _ _ _ _ := appends_closing closed misses
      exact ⟨appends.inner, .notAhead appends.traces⟩
    · have appends : Appends tail _ _ _ _ := appends_closing closed found
      exact ⟨appends.inner, .isAhead appends.traces⟩
  · intro before parts middle asked reading guard row
    obtain ⟨-, same⟩ | ⟨_, -, none⟩ := traces_notAhead.mp guard
    · cases same
      have more : ahead ≠ [] := by
        rintro rfl
        exact closed rfl
      exact .of_sequence row (appends_chars more) fun _ => .nil
    · cases none
  · rintro ⟨parts, rest⟩ rfl
    obtain ⟨char, rfl, more⟩ := traces.commentStep
    rwa [balance_block more] at closed

private theorem keeps_quotedChar {set : CharSet} {mark : Char} {depth : ℕ} {leaves : Leaves}
    (member : (name, .chars set) ∈ rules) (quoted : name ∈ quotedChars)
    (letter : Letter depth (.call name) (fits mark) leaves) :
    Keeps tail (fun ahead => balance (.quote mark) ahead ≠ none) (.call name) := by
  intro ahead asked reading closed traces
  have more : ahead ≠ [] := by
    rintro rfl
    exact closed rfl
  have inner : Inner ⟨name, ahead⟩ := by
    have apart : ∀ name ∈ quotedChars, name ≠ "grammar" ∧ inside name = none := by decide
    exact ⟨⟨(apart name quoted).1, (apart name quoted).2 ▸ atLeast_none⟩, more⟩
  refine ⟨⟨?_, ?_⟩, fun read stops => ?_⟩
  · obtain ⟨rfl, -⟩ := traces_call.mp traces
    simpa using inner
  · obtain ⟨rfl, ⟨_, _, _, _, holds, split, rfl⟩ | ⟨_, holds, rfl⟩⟩ := traces_call.mp traces
    · have appends : Appends tail _ _ _ _ := appends_chars more ((holds_iff member).mp holds)
      obtain ⟨rfl, -⟩ := traces_chars.mp ((holds_iff member).mp holds)
      exact .matched member (by rw [split, List.append_assoc]) appends.traces
    · have appends : Appends tail _ _ _ _ := appends_chars more ((holds_iff member).mp holds)
      exact .missed member appends.traces
  · subst stops
    obtain ⟨char, rest, _, rfl, holds, same⟩ | ⟨-, none⟩ := reads_of_letter letter rfl traces
    · cases same
      simp only [fits, Bool.not_eq_true', Bool.or_eq_false_iff, decide_eq_false_iff_not] at holds
      simpa [balance, holds] using closed
    · cases none

/-- Behind an opening mark an expression is read, and a closing one. -/
theorem appends_enclosed {opening closing : String}
    (traces : Traces (.sequence [.literal opening, node, .literal closing]) ahead asked reading)
    (opens : ∀ {asked reading}, Traces (.literal opening) ahead asked reading →
      Appends tail (.literal opening) ahead asked reading)
    (inner : ∀ rest, ahead = opening.toList ++ rest → goes rest) (keeps : Keeps tail goes node)
    (closes : ∀ {rest asked reading}, goes rest → Traces (.literal closing) rest asked reading →
      Appends tail (.literal closing) rest asked reading) :
    Appends tail (.sequence [.literal opening, node, .literal closing]) ahead asked reading := by
  refine .of_sequence traces opens fun mark row => ?_
  obtain ⟨-, -, split⟩ := traces_literal_some.mp mark
  refine .of_sequence row (fun once => (keeps (inner _ split) once).1) fun once row => ?_
  have there := (keeps (inner _ split) once).2 _ rfl
  exact .of_sequence row (closes there) fun _ => .nil

private theorem appends_quoted {mark : Char} (spelled : text.toList = [mark])
    (quote : isQuote mark = true)
    (keeps : Keeps tail (fun ahead => balance (.quote mark) ahead ≠ none) node) (more : ahead ≠ [])
    (closed : tally ahead ≠ none)
    (traces : Traces (.sequence [.literal text, node, .literal text]) ahead asked reading) :
    Appends tail (.sequence [.literal text, node, .literal text]) ahead asked reading := by
  have single : text.toList.length = 1 := by rw [spelled, List.length_singleton]
  refine appends_enclosed traces (appends_char single more) ?_ keeps ?_
  · rintro rest rfl
    have hash : mark ≠ '#' := by
      rintro rfl
      simp [isQuote] at quote
    rw [spelled] at closed
    simpa [tally, balance, hash, quote] using closed
  · intro rest asked reading closed
    refine appends_char single ?_
    rintro rfl
    exact closed rfl

/-- A closed quote is read alike whatever stands behind the text. -/
theorem appends_quotes (member : (name, body) ∈ rules)
    (quotes : name ∈ ["quoted-string", "quoted-char"]) (more : ahead ≠ [])
    (closed : tally ahead ≠ none) (traces : Traces body ahead asked reading) :
    Appends tail body ahead asked reading := by
  have single : Keeps tail (fun ahead => balance (.quote '\'') ahead ≠ none)
      (.call "single-quoted-char") :=
    keeps_quotedChar (by simp [rules]; rfl) (by decide) (@letter_singleQuoted 0)
  have double : Keeps tail (fun ahead => balance (.quote '"') ahead ≠ none)
      (.call "double-quoted-char") :=
    keeps_quotedChar (by simp [rules]; rfl) (by decide) (@letter_doubleQuoted 0)
  simp only [List.mem_cons, List.not_mem_nil, or_false] at quotes
  rcases quotes with rfl | rfl
  all_goals
    obtain rfl := body_unique member (by simp [rules]; rfl)
    refine .of_first traces ?_
    simp only [List.forall_mem_cons, List.not_mem_nil, false_imp_iff, implies_true, and_true]
  · exact ⟨appends_quoted rfl rfl single.repeated more closed,
      appends_quoted rfl rfl double.repeated more closed⟩
  · exact ⟨appends_quoted rfl rfl single more closed, appends_quoted rfl rfl double more closed⟩

/-- A closed comment is read alike whatever stands behind the text. -/
theorem appends_comment (member : (name, body) ∈ rules)
    (comments : name ∈ ["line-comment", "block-comment"]) (floor : AtLeast (some 1) ahead)
    (traces : Traces body ahead asked reading) : Appends tail body ahead asked reading := by
  obtain ⟨amount, here, least⟩ := floor 1 rfl
  simp only [List.mem_cons, List.not_mem_nil, or_false] at comments
  rcases comments with rfl | rfl
  · obtain rfl := body_unique member (by simp [rules]; rfl)
    refine .of_sequence traces (appends_char rfl floor.ne_nil) fun mark row => ?_
    obtain ⟨-, -, rfl⟩ := traces_literal_some.mp mark
    have keeps : Keeps tail (fun ahead => ∃ amount ∈ balance .line ahead, 1 ≤ amount) _ :=
      keeps_line (@letter_lineChar 0)
    exact .of_sequence row (fun run => (keeps.repeated ⟨amount, here, least⟩ run).1) fun _ => .nil
  · obtain rfl := body_unique member (by simp [rules]; rfl)
    refine appends_enclosed traces (appends_word (by decide) floor) ?_ keeps_commentStep.repeated ?_
    · rintro rest rfl
      have same : tally ("/*".toList ++ rest) = balance .block rest := rfl
      rw [← same, here]
      simp
    · exact fun closed => appends_closing closed

/-! ### Inside of brackets -/

mutual

/-- Whether an expression is read alike whatever stands behind the text: what it compares by itself
lies where the balance ahead is at least one, or is one character where something lies ahead, and so
do the productions that it asks for. -/
def staysWithin (more : Bool) (low : Option ℤ) : Node → Bool
  | .empty => true
  | .literal text => (more && text.toList.length = 1) || (covers (some 1) low && isWhole text)
  | .chars _ => more || covers (some 1) low
  | .reference name _ => name ∉ "grammar" :: quotedChars && covers (inside name) low
  | .sequence children => staysWithinAll more low children
  | .first children => staysWithinEach more low children
  | .repeated child _ _ => staysWithin false (if gain child = some 0 then low else none) child
  | .lookahead child _ => staysWithin more low child
  | _ => false

/-- The same of expressions one after the other. -/
def staysWithinAll (more : Bool) (low : Option ℤ) : List Node → Bool
  | [] => true
  | node :: rest =>
      staysWithin more low node &&
        staysWithinAll false (low.bind fun low => (gain node).map (low - ·)) rest

/-- The same of expressions at the same place. -/
def staysWithinEach (more : Bool) (low : Option ℤ) : List Node → Bool
  | [] => true
  | node :: rest => staysWithin more low node && staysWithinEach more low rest

end

private theorem staysWithin_of_mem (member : (name, body) ∈ rules)
    (other : name ∉ "grammar" :: enclosures) : staysWithin true (inside name) body = true := by
  have holds := check_of_mem (fun name body =>
      name ∈ "grammar" :: enclosures || staysWithin true (inside name) body)
    (by decide +kernel) member
  simpa [other] using holds

private theorem covers_inside {low : Option ℤ} (other : name ∉ quotedChars)
    (covered : covers (inside name) low = true) : covers (some 1) low = true := by
  simp only [inside, if_neg other] at covered
  split at covered
  · cases low with
    | none => cases covered
    | some low => simp_all [covers]; omega
  · exact covered

/-- What is read of a production inside of brackets is read alike whatever stands behind the text,
if that holds of its body by the balance. -/
theorem Inner.appends_body (inner : Inner ⟨name, ahead⟩) (member : (name, body) ∈ rules)
    (traces : Traces body ahead asked reading)
    (outside : staysWithin true (inside name) body = true → Appends tail body ahead asked reading) :
    Appends tail body ahead asked reading := by
  by_cases enclosed : name ∈ enclosures
  · have needs : inside name = some 1 := by
      have all : ∀ name ∈ enclosures, inside name = some 1 := by decide
      exact all name enclosed
    have floor : AtLeast (some 1) ahead := needs ▸ inner.above.2
    have closed : tally ahead ≠ none := by
      obtain ⟨amount, here, -⟩ := floor 1 rfl
      have here : tally ahead = some amount := here
      simp [here]
    simp only [enclosures, List.mem_cons, List.not_mem_nil, or_false] at enclosed
    rcases enclosed with named | named | named | named
    · exact appends_quotes member (by simp [named]) inner.more closed traces
    · exact appends_quotes member (by simp [named]) inner.more closed traces
    · exact appends_comment member (by simp [named]) floor traces
    · exact appends_comment member (by simp [named]) floor traces
  · have other := List.not_mem_cons_of_ne_of_not_mem inner.above.1 enclosed
    exact outside (staysWithin_of_mem member other)

private theorem appends_of_literal {more : Bool}
    (stays : staysWithin more low (.literal text) = true) (floor : AtLeast low ahead)
    (ready : more = true → ahead ≠ []) (traces : Traces (.literal text) ahead asked reading) :
    Appends tail (.literal text) ahead asked reading := by
  rcases Bool.or_eq_true_iff.mp stays with char | word
  · obtain ⟨here, single⟩ := Bool.and_eq_true_iff.mp char
    exact appends_char (of_decide_eq_true single) (ready here) traces
  · obtain ⟨covered, whole⟩ := Bool.and_eq_true_iff.mp word
    exact appends_word whole (floor.of_covers covered) traces

private theorem inner_of_staysWithin {more : Bool}
    (stays : staysWithin more low (.call name) = true) (floor : AtLeast low ahead) :
    Inner ⟨name, ahead⟩ := by
  obtain ⟨other, covered⟩ := Bool.and_eq_true_iff.mp stays
  simp only [List.mem_cons, not_or, decide_eq_true_eq] at other
  exact ⟨⟨other.1, floor.of_covers covered⟩,
    (floor.of_covers (covers_inside other.2 covered)).ne_nil⟩

/-- What stays inside of brackets is read alike whatever stands behind the text. -/
theorem Traces.appends {more : Bool} (traces : Traces node ahead asked reading)
    (stays : staysWithin more low node = true) (floor : AtLeast low ahead)
    (ready : more = true → ahead ≠ []) : Appends tail node ahead asked reading := by
  induction traces generalizing low more with
  | empty => exact ⟨by simp, .empty⟩
  | ends | goesOn => cases stays
  | literal spelled => exact appends_of_literal stays floor ready (.literal spelled)
  | otherLiteral differs => exact appends_of_literal stays floor ready (.otherLiteral differs)
  | chars member => exact ⟨by simp, .chars member⟩
  | otherChars differs =>
      refine appends_chars ?_ (.otherChars differs)
      rcases Bool.or_eq_true_iff.mp stays with here | covered
      · exact ready here
      · exact (floor.of_covers covered).ne_nil
  | matched member split inside induction =>
      have inner := inner_of_staysWithin stays floor
      have appends : Appends tail _ _ _ _ := inner.appends_body member inside fun stays =>
        induction stays inner.above.2 fun _ => inner.more
      exact ⟨by simpa using inner,
        .matched member (by rw [split, List.append_assoc]) appends.traces⟩
  | missed member inside induction =>
      have inner := inner_of_staysWithin stays floor
      have appends : Appends tail _ _ _ _ := inner.appends_body member inside fun stays =>
        induction stays inner.above.2 fun _ => inner.more
      exact ⟨by simpa using inner, .missed member appends.traces⟩
  | nil => exact ⟨by simp, .nil⟩
  | cons head _ inductionHead inductionTail | broken head _ inductionHead inductionTail =>
      obtain ⟨first, later⟩ := Bool.and_eq_true_iff.mp stays
      exact (inductionHead first floor ready).cons
        (inductionTail later (floor.after head) (by simp))
  | stop _ induction => exact (induction (Bool.and_eq_true_iff.mp stays).1 floor ready).stop
  | noOther => exact ⟨by simp, .noOther⟩
  | chosen _ induction =>
      have head := induction (Bool.and_eq_true_iff.mp stays).1 floor ready
      exact ⟨head.inner, .chosen head.traces⟩
  | next _ _ inductionHead inductionTail =>
      obtain ⟨first, later⟩ := Bool.and_eq_true_iff.mp stays
      exact (inductionHead first floor ready).next (inductionTail later floor ready)
  | present _ induction =>
      have once := induction stays floor.of_ite (by simp)
      exact ⟨once.inner, .present once.traces⟩
  | absent _ induction =>
      have misses := induction stays floor.of_ite (by simp)
      exact ⟨misses.inner, .absent misses.traces⟩
  | exhausted _ induction => exact (induction stays floor.of_ite (by simp)).exhausted
  | idle _ induction =>
      have once := induction stays floor.of_ite (by simp)
      exact ⟨once.inner, .idle once.traces⟩
  | @again child _ _ _ _ _ _ _ _ head moves _ inductionHead inductionTail =>
      have inside : AtLeast (if gain child = some 0 then low else none) _ := floor.of_ite
      have later : staysWithin false (if gain child = some 0 then low else none)
          (.repeated child (.fixed 0) none) = true := by
        by_cases still : gain child = some 0 <;> simpa [staysWithin, still] using stays
      exact (inductionHead stays inside (by simp)).again moves
        (inductionTail later (inside.again head) (by simp))
  | notAhead _ induction =>
      have misses := induction stays floor ready
      exact ⟨misses.inner, .notAhead misses.traces⟩
  | isAhead _ induction =>
      have found := induction stays floor ready
      exact ⟨found.inner, .isAhead found.traces⟩

/-! ### Seals -/

/-- Whatever stands behind the text, a production and those below it read the same, and something
lies ahead of each of them. -/
def Spot.Sealed (tail : List Char) (spot : Spot) : Prop :=
  ∀ below, spot.Reaches below → below.ahead ≠ [] ∧ ∀ asked reading, below.Holds asked reading →
    (below.append tail).Holds (asked.map (Spot.append tail)) (Reading.append tail reading)

theorem Spot.Sealed.more (sealed : spot.Sealed tail) : spot.ahead ≠ [] := (sealed spot .refl).1

theorem Spot.Sealed.append (sealed : spot.Sealed tail) (holds : spot.Holds asked reading) :
    (spot.append tail).Holds (asked.map (Spot.append tail)) (Reading.append tail reading) :=
  (sealed spot .refl).2 _ _ holds

theorem Spot.Sealed.of_asks {other : Spot} (sealed : spot.Sealed tail) (asks : spot.Asks other) :
    other.Sealed tail :=
  fun below reaches => sealed below (.head asks reaches)

theorem Spot.Sealed.call (sealed : (⟨name, ahead⟩ : Spot).Sealed tail)
    (traces : Traces (.call name) ahead asked reading) :
    Traces (.call name) (ahead ++ tail) (asked.map (Spot.append tail))
      (Reading.append tail reading) := by
  obtain ⟨rfl, ⟨_, _, _, _, holds, rfl, rfl⟩ | ⟨_, holds, rfl⟩⟩ := traces_call.mp traces
  · exact traces_call.mpr
      ⟨rfl, .inl ⟨_, _, _, _, sealed.append holds, List.append_assoc .., rfl⟩⟩
  · exact traces_call.mpr ⟨rfl, .inr ⟨_, sealed.append holds, rfl⟩⟩

theorem Spot.Sealed.optional (sealed : (⟨name, ahead⟩ : Spot).Sealed tail)
    (traces : Traces (.optional (.call name)) ahead asked reading) :
    Traces (.optional (.call name)) (ahead ++ tail) (asked.map (Spot.append tail))
      (Reading.append tail reading) := by
  obtain ⟨_, rfl, once⟩ | ⟨misses, rfl⟩ := traces_optional.mp traces
  · exact .present (sealed.call once)
  · exact .absent (sealed.call misses)

private theorem Spot.sealed_of (more : spot.ahead ≠ [])
    (each : ∀ {asked reading}, spot.Holds asked reading →
      (spot.append tail).Holds (asked.map (Spot.append tail)) (Reading.append tail reading) ∧
        ∀ other ∈ asked, other.Sealed tail) : spot.Sealed tail := by
  intro below reaches
  rcases reaches.cases_head with rfl | ⟨next, ⟨_, _, holds, among⟩, reaches⟩
  · exact ⟨more, fun _ _ holds => (each holds).1⟩
  · exact (each holds).2 next among below reaches

private theorem Inner.appends (inner : Inner ⟨name, ahead⟩) (member : (name, body) ∈ rules)
    (traces : Traces body ahead asked reading) : Appends tail body ahead asked reading :=
  inner.appends_body member traces fun stays =>
    traces.appends stays inner.above.2 fun _ => inner.more

private theorem Inner.of_asks {other : Spot} (inner : Inner spot) (asks : spot.Asks other) :
    Inner other := by
  obtain ⟨asked, reading, ⟨body, member, traces⟩, among⟩ := asks
  have appends : Appends [] body spot.ahead asked reading := inner.appends member traces
  exact appends.inner other among

theorem Inner.sealed (inner : Inner spot) : spot.Sealed tail := by
  intro below reaches
  have inside : Inner below := by
    induction reaches with
    | refl => exact inner
    | tail _ asks induction => exact induction.of_asks asks
  exact ⟨inside.more, fun _ _ ⟨body, member, traces⟩ =>
    ⟨body, member, (inside.appends member traces).traces⟩⟩

theorem sealed_of_appends (more : ahead ≠ [])
    (appends : ∀ {body asked reading}, (name, body) ∈ rules → Traces body ahead asked reading →
      Appends tail body ahead asked reading) : (⟨name, ahead⟩ : Spot).Sealed tail := by
  refine Spot.sealed_of more fun ⟨body, member, traces⟩ => ?_
  have inside := appends member traces
  exact ⟨⟨body, member, inside.traces⟩, fun other among => (inside.inner other among).sealed⟩

/-- The productions that start with a bracket, or are one sign. -/
def openers : List String :=
  ["lookaround", "special", "group", "code-point-range", "any-char", "quantifier", "parameter-list"]

/-- Between phrases, what starts with a bracket is read alike whatever stands behind the text. -/
theorem sealed_of_opener (named : name ∈ openers) (even : tally ahead = some 0)
    (more : ahead ≠ []) : (⟨name, ahead⟩ : Spot).Sealed tail := by
  refine sealed_of_appends more fun member traces => ?_
  have stays := check_of_mem (fun name body =>
    name ∉ openers || staysWithin true (some 0) body) (by decide +kernel) member
  simp only [named, not_true_eq_false, decide_false, Bool.false_or] at stays
  refine traces.appends stays ?_ fun _ => more
  rintro least ⟨⟩
  exact ⟨0, even, le_rfl⟩

theorem sealed_of_quotes (even : tally ahead = some 0) (more : ahead ≠ []) :
    (⟨"quoted-string", ahead⟩ : Spot).Sealed tail :=
  sealed_of_appends more fun member traces =>
    appends_quotes member (by simp) more (by simp [even]) traces

end Dialect

end Bnf

end ParametricGrammar
