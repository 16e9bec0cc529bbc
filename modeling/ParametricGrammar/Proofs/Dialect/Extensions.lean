import ParametricGrammar.Proofs.Dialect.Tallies
/-!
# Texts that go on

A production that is asked for where brackets are still open never gets to the end of the text. It
asks for the same and reads the same if the text goes on in a new line.
-/

namespace ParametricGrammar

namespace Bnf

namespace Dialect

variable {name : String} {node body child : Node} {ahead rest tail : List Char}
  {asked : List Spot} {parts : List Part} {reading : Reading} {spot below : Spot}

/-! ### Floors -/

/-- The balance ahead is at least some amount, if one is given. -/
def AtLeast (low : Option ℤ) (ahead : List Char) : Prop :=
  ∀ least ∈ low, ∃ amount ∈ tally ahead, least ≤ amount

/-- A production is asked for where the balance ahead is at least what it needs, and the root is not
asked for. -/
def Above (need : String → Option ℤ) (spot : Spot) : Prop :=
  spot.name ≠ "grammar" ∧ AtLeast (need spot.name) spot.ahead

/-- Whether a lower bound of the balance is as much as is needed. -/
def covers (need low : Option ℤ) : Bool :=
  match need, low with
  | none, _ => true
  | some _, none => false
  | some need, some low => need ≤ low

mutual

/-- Whether an expression only asks for productions where the balance is what they need, if it is at
least some amount ahead of the expression. -/
def staysAbove (need : String → Option ℤ) (low : Option ℤ) : Node → Bool
  | .reference name _ => name ≠ "grammar" && covers (need name) low
  | .sequence children => staysAboveAll need low children
  | .first children => staysAboveEach need low children
  | .repeated child _ _ => staysAbove need (if gain child = some 0 then low else none) child
  | .lookahead child _ => staysAbove need low child
  | _ => true

/-- The same of expressions one after the other. -/
def staysAboveAll (need : String → Option ℤ) (low : Option ℤ) : List Node → Bool
  | [] => true
  | node :: rest =>
      staysAbove need low node &&
        staysAboveAll need (low.bind fun low => (gain node).map (low - ·)) rest

/-- The same of expressions at the same place. -/
def staysAboveEach (need : String → Option ℤ) (low : Option ℤ) : List Node → Bool
  | [] => true
  | node :: rest => staysAbove need low node && staysAboveEach need low rest

end

theorem atLeast_none : AtLeast none ahead := nofun

theorem AtLeast.of_covers {need low : Option ℤ} (floor : AtLeast low ahead)
    (covered : covers need low = true) : AtLeast need ahead := by
  rintro least ⟨⟩
  cases low with
  | none => cases covered
  | some low =>
      obtain ⟨amount, here, above⟩ := floor low rfl
      exact ⟨amount, here, (of_decide_eq_true covered).trans above⟩

theorem AtLeast.after {low : Option ℤ} (floor : AtLeast low ahead)
    (traces : Traces node ahead asked (some (parts, rest))) :
    AtLeast (low.bind fun low => (gain node).map (low - ·)) rest := by
  intro least bound
  obtain ⟨low, rfl, bound⟩ := Option.bind_eq_some_iff.mp bound
  obtain ⟨added, gains, rfl⟩ := Option.map_eq_some_iff.mp bound
  obtain ⟨amount, here, above⟩ := floor low rfl
  rw [traces.tally_eq gains] at here
  obtain ⟨behind, there, rfl⟩ := Option.map_eq_some_iff.mp here
  exact ⟨behind, there, by omega⟩

theorem AtLeast.again {low : Option ℤ}
    (floor : AtLeast (if gain node = some 0 then low else none) ahead)
    (traces : Traces node ahead asked (some (parts, rest))) :
    AtLeast (if gain node = some 0 then low else none) rest := by
  split
  · rename_i still
    rw [if_pos still] at floor
    intro least bound
    obtain ⟨amount, here, above⟩ := floor least bound
    rw [traces.tally_eq still] at here
    obtain ⟨behind, there, rfl⟩ := Option.map_eq_some_iff.mp here
    exact ⟨behind, there, by omega⟩
  · exact atLeast_none

theorem AtLeast.of_ite {low : Option ℤ} {holds : Prop} [Decidable holds]
    (floor : AtLeast low ahead) : AtLeast (if holds then low else none) ahead := by
  split
  · exact floor
  · exact atLeast_none

/-- Where an expression asks for productions the balance is what they need. -/
theorem Traces.above {need : String → Option ℤ} {low : Option ℤ}
    (traces : Traces node ahead asked reading) (stays : staysAbove need low node = true)
    (floor : AtLeast low ahead) : ∀ spot ∈ asked, Above need spot := by
  induction traces generalizing low with
  | matched | missed =>
      obtain ⟨other, covered⟩ := Bool.and_eq_true_iff.mp stays
      intro spot member
      obtain rfl := List.mem_singleton.mp member
      exact ⟨by simpa using other, floor.of_covers covered⟩
  | cons head _ inductionHead inductionTail =>
      obtain ⟨first, later⟩ := Bool.and_eq_true_iff.mp stays
      exact List.forall_mem_append.mpr
        ⟨inductionHead first floor, inductionTail later (floor.after head)⟩
  | broken head _ inductionHead inductionTail =>
      obtain ⟨first, later⟩ := Bool.and_eq_true_iff.mp stays
      exact List.forall_mem_append.mpr
        ⟨inductionHead first floor, inductionTail later (floor.after head)⟩
  | stop _ induction => exact induction (Bool.and_eq_true_iff.mp stays).1 floor
  | chosen _ induction => exact induction (Bool.and_eq_true_iff.mp stays).1 floor
  | next _ _ inductionHead inductionTail =>
      obtain ⟨first, later⟩ := Bool.and_eq_true_iff.mp stays
      exact List.forall_mem_append.mpr ⟨inductionHead first floor, inductionTail later floor⟩
  | present _ induction | absent _ induction => exact induction stays floor.of_ite
  | exhausted _ induction | idle _ induction => exact induction stays floor.of_ite
  | @again child _ _ _ _ _ _ _ _ head _ _ inductionHead inductionTail =>
      have inside : AtLeast (if gain child = some 0 then low else none) _ := floor.of_ite
      refine List.forall_mem_append.mpr ⟨inductionHead stays inside, ?_⟩
      refine inductionTail ?_ (inside.again head)
      by_cases still : gain child = some 0 <;> simpa [staysAbove, still] using stays
  | notAhead _ induction | isAhead _ induction => exact induction stays floor
  | _ => simp

/-- A need is met by everything that a production asks for once its own is. -/
def Sufficient (need : String → Option ℤ) : Prop :=
  ∀ rule ∈ rules, rule.1 ≠ "grammar" → staysAbove need (need rule.1) rule.2 = true

theorem Above.of_asks {need : String → Option ℤ} (sufficient : Sufficient need)
    (above : Above need spot) (asks : spot.Asks below) : Above need below := by
  obtain ⟨asked, reading, ⟨body, member, traces⟩, among⟩ := asks
  exact traces.above (sufficient _ member above.1) above.2 below among

private theorem Above.of_reaches {need : String → Option ℤ} (sufficient : Sufficient need)
    (above : Above need spot) (reaches : spot.Reaches below) : Above need below := by
  induction reaches with
  | refl => exact above
  | tail _ asks induction => exact induction.of_asks sufficient asks

/-! ### Productions that do not notice the end -/

/-- Whether the end of the text makes no difference to what a production reads: a line break would
not do in its place, and a comment that is open would not be closed behind it. -/
structure Spot.Steady (spot : Spot) : Prop where
  inner : spot.name ≠ "grammar"
  broken : spot.name = "b-break" → spot.ahead ≠ []
  closed : spot.name = "block-comment" → spot.Fails → ¬ "/*".toList <+: spot.ahead

/-- The end of the text makes no difference to what a production reads nor to what it asks for. -/
def Spot.Kept (spot : Spot) : Prop :=
  ∀ below, spot.Reaches below → below.Steady

theorem Spot.Kept.of_asks (kept : spot.Kept) (asks : spot.Asks below) : below.Kept :=
  fun other reaches => kept other (.head asks reaches)

private theorem Spot.Kept.steady (kept : spot.Kept) : spot.Steady := kept spot .refl

private theorem Spot.Kept.within (kept : spot.Kept) (holds : spot.Holds asked reading) :
    ∀ other ∈ asked, other.Kept :=
  fun _ among => kept.of_asks ⟨_, _, holds, among⟩

theorem Spot.kept_of_holds (holds : spot.Holds asked reading) (steady : spot.Steady)
    (kept : ∀ other ∈ asked, other.Kept) : spot.Kept := by
  intro below reaches
  rcases reaches.cases_head with rfl | ⟨next, asks, reaches⟩
  · exact steady
  · exact kept next (holds.mem_of_asks asks) below reaches

/-- What the productions need to be asked for so that the end of the text makes no difference. Only
those that read a line break, a comment or the sign of a definition need a place inside. -/
def brink (name : String) : Option ℤ :=
  if name = "production" then some 3
  else if name ∈ ["production-head", "section-number", "alternation", "sequence", "difference",
      "s-ignorable", "b-break", "comment", "block-comment"] then some 1
  else if name ∈ ["quantified", "atom", "lookaround", "group"] then some 0
  else none

private theorem sufficient_brink : Sufficient brink := by
  intro rule member other
  have holds := check_of_mem (fun name body =>
    name = "grammar" || staysAbove brink (brink name) body) (by decide +kernel) member
  simpa [other] using holds

/-- An open block comment is closed if there is a balance behind it. -/
theorem tally_of_unclosed {inner : List Char}
    (holds : (⟨"block-comment", "/*".toList ++ inner⟩ : Spot).Holds asked none) :
    tally ("/*".toList ++ inner) = none := by
  have misses := (holds_iff (by simp [rules]; rfl)).mp holds
  obtain ⟨opening, -⟩ | ⟨_, _, _, _, _, opening, run, -, none⟩ := traces_sequence_cons.mp misses
  · obtain ⟨-, ⟨_, -, none⟩ | ⟨differs, -⟩⟩ := traces_literal.mp opening
    · cases none
    · exact absurd (List.prefix_append _ _) differs
  obtain rfl := Reading.prepend_eq_none_iff.mp none.symm
  obtain ⟨-, -, same⟩ := traces_literal_some.mp opening
  obtain rfl := List.append_cancel_left same
  obtain ⟨run, -⟩ | ⟨_, _, _, _, _, run, closing, -, none⟩ := traces_sequence_cons.mp run
  · exact absurd rfl run.zeroOrMore_ne_none
  obtain rfl := Reading.prepend_eq_none_iff.mp none.symm
  obtain ⟨_, rfl, same, rfl | closes⟩ := balance_of_open run
  · exact same [] List.prefix_rfl
  · obtain ⟨closing, -⟩ | ⟨_, _, _, _, _, -, last, -, none⟩ := traces_sequence_cons.mp closing
    · obtain ⟨-, ⟨_, -, none⟩ | ⟨differs, -⟩⟩ := traces_literal.mp closing
      · cases none
      · exact absurd closes differs
    · obtain ⟨-, rfl⟩ := traces_sequence_nil.mp last
      cases none

private theorem Above.steady (above : Above brink spot) : spot.Steady where
  inner := above.1
  broken := by
    rintro named empty
    obtain ⟨amount, here, least⟩ := above.2 1 (by rw [named]; rfl)
    rw [empty] at here
    cases here
    omega
  closed := by
    rintro named ⟨asked, holds⟩ ⟨inner, opens⟩
    obtain ⟨name, ahead⟩ := spot
    obtain rfl : name = "block-comment" := named
    obtain rfl : "/*".toList ++ inner = ahead := opens
    obtain ⟨amount, here, -⟩ := above.2 1 rfl
    rw [tally_of_unclosed holds] at here
    cases here

theorem Above.kept (above : Above brink spot) : spot.Kept :=
  fun _ reaches => (above.of_reaches sufficient_brink reaches).steady

/-! ### Going on in a new line -/

/-- The spot in the text that goes on with a new line. -/
def Spot.extend (tail : List Char) (spot : Spot) : Spot := ⟨spot.name, spot.ahead ++ '\n' :: tail⟩

/-- What is read in the text that goes on with a new line. -/
def Reading.extend (tail : List Char) (reading : Reading) : Reading :=
  reading.map fun read => (read.1, read.2 ++ '\n' :: tail)

mutual

/-- Whether an expression reads no line break by itself, and not the end of the text. -/
def isInline : Node → Bool
  | .literal text => '\n' ∉ text.toList
  | .chars set => !set.contains '\n'
  | .sequence children | .first children => areInline children
  | .repeated child _ _ | .lookahead child _ => isInline child
  | .empty | .reference _ _ => true
  | _ => false

/-- The same of expressions. -/
def areInline : List Node → Bool
  | [] => true
  | node :: rest => isInline node && areInline rest

end

private theorem isInline_of_mem (member : (name, body) ∈ rules)
    (other : name ∉ ["grammar", "b-break", "block-comment"]) : isInline body = true := by
  have holds := check_of_mem (fun name body =>
    name ∈ ["grammar", "b-break", "block-comment"] || isInline body) (by decide +kernel) member
  simpa [other] using holds

/-- What misses a literal without line breaks also misses it if it goes on in a new line. -/
theorem not_prefix_extend {text : List Char} (inline : '\n' ∉ text) (differs : ¬ text <+: ahead) :
    ¬ text <+: ahead ++ '\n' :: tail := by
  intro spelled
  rcases List.prefix_or_prefix_of_prefix spelled (List.prefix_append ahead _) with short | long
  · exact differs short
  · obtain ⟨more, rfl⟩ := long
    cases more with
    | nil => exact differs (by simp)
    | cons char more =>
        obtain ⟨behind, same⟩ := spelled
        simp only [List.append_assoc, List.append_cancel_left_eq, List.cons_append,
          List.cons.injEq] at same
        exact inline (by simp [same.1])

section Extend

variable {set : CharSet}

private theorem extends_chars (inline : ahead ≠ [] ∨ set.contains '\n' = false)
    (traces : Traces (.chars set) ahead asked reading) :
    Traces (.chars set) (ahead ++ '\n' :: tail) (asked.map (Spot.extend tail))
      (Reading.extend tail reading) := by
  obtain ⟨rfl, ⟨char, rest, rfl, member, rfl⟩ | ⟨differs, rfl⟩⟩ := traces_chars.mp traces
  · exact .chars member
  · refine .otherChars fun char first => ?_
    cases ahead with
    | nil =>
        cases first
        exact inline.resolve_left (by simp)
    | cons other ahead => exact differs char first

private theorem extends_break (some : ahead ≠ [])
    (traces : Traces (.first [point 0x0A, point 0x0D]) ahead asked reading) :
    Traces (.first [point 0x0A, point 0x0D]) (ahead ++ '\n' :: tail)
      (asked.map (Spot.extend tail)) (Reading.extend tail reading) := by
  obtain ⟨read, rfl, here⟩ | ⟨before, behind, here, later, rfl⟩ := traces_first_cons.mp traces
  · exact .chosen (extends_chars (.inl some) here)
  · rw [List.map_append]
    refine .next (extends_chars (.inl some) here) ?_
    obtain ⟨read, rfl, here⟩ | ⟨before, behind, here, none, rfl⟩ := traces_first_cons.mp later
    · exact .chosen (extends_chars (.inl some) here)
    · obtain ⟨rfl, rfl⟩ := traces_first_nil.mp none
      rw [List.map_append]
      exact .next (extends_chars (.inl some) here) .noOther

theorem traces_commentStep {char : Char} (more : ¬ "*/".toList <+: char :: rest) :
    Traces commentStep (char :: rest) [] (some ([], rest)) :=
  .cons (.notAhead (.otherLiteral more)) (.cons (.chars (contains_any char)) .nil)

theorem misses_commentStep (closes : "*/".toList <+: ahead) : Traces commentStep ahead [] none := by
  obtain ⟨rest, rfl⟩ := closes
  exact .stop (.isAhead (.literal rfl))

/-- A comment that is closed is read alike if the text goes on. -/
theorem extends_run (run : Traces (.zeroOrMore commentStep) ahead asked (some (parts, rest)))
    (closes : "*/".toList <+: rest) :
    Traces (.zeroOrMore commentStep) ahead [] (some ([], rest)) ∧
      Traces (.zeroOrMore commentStep) (ahead ++ '\n' :: tail) []
        (some ([], rest ++ '\n' :: tail)) := by
  refine run.steps (fun ahead rest => "*/".toList <+: rest →
    Traces (.zeroOrMore commentStep) ahead [] (some ([], rest)) ∧
      Traces (.zeroOrMore commentStep) (ahead ++ '\n' :: tail) []
        (some ([], rest ++ '\n' :: tail))) ?_ ?_ ?_ closes
  · exact fun _ closes => ⟨.exhausted (misses_commentStep closes),
      .exhausted (misses_commentStep (closes.trans (List.prefix_append _ _)))⟩
  · intro ahead asked parts once
    obtain ⟨char, same, -⟩ := once.commentStep
    simp at same
  · intro ahead asked parts middle rest once later closes
    obtain ⟨char, rfl, more⟩ := once.commentStep
    obtain ⟨here, there⟩ := later closes
    exact ⟨.again (traces_commentStep more) (by simp) here,
      .again (traces_commentStep (not_prefix_extend (by decide) more)) (by simp) there⟩

private theorem extends_comment
    (unopened : reading = none → ¬ "/*".toList <+: ahead)
    (traces : Traces (.sequence [.literal "/*", .zeroOrMore commentStep, .literal "*/"]) ahead asked
      reading) :
    Traces (.sequence [.literal "/*", .zeroOrMore commentStep, .literal "*/"])
      (ahead ++ '\n' :: tail) (asked.map (Spot.extend tail)) (Reading.extend tail reading) := by
  cases reading with
  | none =>
      have misses : ∀ {ahead : List Char}, ¬ "/*".toList <+: ahead → Traces (.sequence
          [.literal "/*", .zeroOrMore commentStep, .literal "*/"]) ahead [] none :=
        fun differs => .stop (.otherLiteral differs)
      obtain ⟨rfl, -⟩ := traces.unique (misses (unopened rfl))
      exact misses (not_prefix_extend (by decide) (unopened rfl))
  | some read =>
      obtain ⟨parts, rest⟩ := read
      obtain ⟨_, _, _, inner, _, opening, later, -, -⟩ := traces_sequence_cons_some.mp traces
      obtain ⟨-, -, rfl⟩ := traces_literal_some.mp opening
      obtain ⟨_, _, _, _, _, run, closing, -, -⟩ := traces_sequence_cons_some.mp later
      obtain ⟨_, _, _, _, _, closing, none, -, -⟩ := traces_sequence_cons_some.mp closing
      obtain ⟨-, -, rfl⟩ := traces_literal_some.mp closing
      obtain ⟨-, same⟩ := traces_sequence_nil.mp none
      cases same
      obtain ⟨here, there⟩ := extends_run run (List.prefix_append _ _)
      have whole : Traces (.sequence [.literal "/*", .zeroOrMore commentStep, .literal "*/"])
          ("/*".toList ++ inner) [] (some ([], rest)) :=
        .cons (.literal rfl) (.cons here (.cons (.literal rfl) .nil))
      obtain ⟨rfl, same⟩ := traces.unique whole
      cases same
      rw [List.append_assoc] at there ⊢
      exact .cons (.literal rfl) (.cons there (.cons (.literal rfl) .nil))

/-- What a production reads that does not notice the end of the text. -/
theorem extends_body (steady : (⟨name, ahead⟩ : Spot).Steady) (member : (name, body) ∈ rules)
    (inside : Traces body ahead asked reading)
    (inline : isInline body = true → Traces body (ahead ++ '\n' :: tail)
      (asked.map (Spot.extend tail)) (Reading.extend tail reading)) :
    Traces body (ahead ++ '\n' :: tail) (asked.map (Spot.extend tail))
      (Reading.extend tail reading) := by
  by_cases special : name ∈ ["grammar", "b-break", "block-comment"]
  · simp only [List.mem_cons, List.not_mem_nil, or_false] at special
    rcases special with rfl | rfl | rfl
    · exact absurd rfl steady.inner
    · obtain rfl := body_unique member (by simp [rules]; rfl)
      exact extends_break (steady.broken rfl) inside
    · obtain rfl := body_unique member (by simp [rules]; rfl)
      refine extends_comment ?_ inside
      rintro rfl
      exact steady.closed rfl ⟨asked, _, member, inside⟩
  · exact inline (isInline_of_mem member special)

/-- The end of the text makes no difference to an expression without line breaks that only asks for
productions to which it makes none. -/
theorem Traces.extend (traces : Traces node ahead asked reading) (inline : isInline node = true)
    (kept : ∀ spot ∈ asked, spot.Kept) :
    Traces node (ahead ++ '\n' :: tail) (asked.map (Spot.extend tail))
      (Reading.extend tail reading) := by
  induction traces with
  | empty => exact .empty
  | nil => exact .nil
  | noOther => exact .noOther
  | ends | goesOn => cases inline
  | literal spelled =>
      rw [spelled, List.append_assoc]
      exact .literal rfl
  | otherLiteral differs =>
      exact .otherLiteral (not_prefix_extend (by simpa [isInline] using inline) differs)
  | chars member => exact .chars member
  | otherChars differs =>
      exact extends_chars (.inr (by simpa [isInline] using inline)) (.otherChars differs)
  | matched member split inside induction =>
      have called := kept _ List.mem_cons_self
      refine .matched member (by rw [split, List.append_assoc])
        (extends_body called.steady member inside fun inline => ?_)
      exact induction inline (called.within ⟨_, member, inside⟩)
  | missed member inside induction =>
      have called := kept _ List.mem_cons_self
      refine .missed member (extends_body called.steady member inside fun inline => ?_)
      exact induction inline (called.within ⟨_, member, inside⟩)
  | cons head tail inductionHead inductionTail =>
      obtain ⟨first, later⟩ := Bool.and_eq_true_iff.mp inline
      obtain ⟨before, behind⟩ := List.forall_mem_append.mp kept
      rw [List.map_append]
      exact .cons (inductionHead first before) (inductionTail later behind)
  | stop _ induction => exact .stop (induction (Bool.and_eq_true_iff.mp inline).1 kept)
  | broken _ _ inductionHead inductionTail =>
      obtain ⟨first, later⟩ := Bool.and_eq_true_iff.mp inline
      obtain ⟨before, behind⟩ := List.forall_mem_append.mp kept
      rw [List.map_append]
      exact .broken (inductionHead first before) (inductionTail later behind)
  | chosen _ induction => exact .chosen (induction (Bool.and_eq_true_iff.mp inline).1 kept)
  | next _ _ inductionHead inductionTail =>
      obtain ⟨first, later⟩ := Bool.and_eq_true_iff.mp inline
      obtain ⟨before, behind⟩ := List.forall_mem_append.mp kept
      rw [List.map_append]
      exact .next (inductionHead first before) (inductionTail later behind)
  | present _ induction => exact .present (induction inline kept)
  | absent _ induction => exact .absent (induction inline kept)
  | @exhausted child ahead asked least _ induction =>
      have misses : Traces (.repeated child (.fixed least) none) _ _ _ :=
        .exhausted (induction inline kept)
      by_cases none : least = 0 <;> simpa [none, Reading.extend] using misses
  | idle _ induction => exact .idle (induction inline kept)
  | again _ moves _ inductionHead inductionTail =>
      obtain ⟨before, behind⟩ := List.forall_mem_append.mp kept
      rw [List.map_append]
      exact .again (inductionHead inline before) (by simpa using moves)
        (inductionTail inline behind)
  | notAhead _ induction => exact .notAhead (induction inline kept)
  | isAhead _ induction => exact .isAhead (induction inline kept)

/-- A production that does not notice the end of the text asks for the same if the text goes on. -/
theorem Spot.Kept.extend (kept : spot.Kept) (holds : spot.Holds asked reading) :
    (spot.extend tail).Holds (asked.map (Spot.extend tail)) (Reading.extend tail reading) := by
  obtain ⟨body, member, traces⟩ := holds
  exact ⟨body, member, extends_body kept.steady member traces fun inline =>
    traces.extend inline (kept.within ⟨body, member, traces⟩)⟩

end Extend

end Dialect

end Bnf

end ParametricGrammar
