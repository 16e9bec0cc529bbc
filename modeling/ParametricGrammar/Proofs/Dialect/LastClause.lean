import ParametricGrammar.Proofs.Dialect.Clauses
import ParametricGrammar.Proofs.Dialect.Seams
/-!
# The last clause of a text that goes on

The last clause of a text ends with it. Where another text follows in a new line, the clause ends at
the same place: what comes next is the head of a clause, or nothing, and neither goes on with the
phrases that end there.
-/

namespace ParametricGrammar

namespace Bnf

namespace Dialect

open Replays

variable {name : String} {node body : Node} {nodes : List Node} {ahead rest tail next : List Char}
  {room : ℕ} {asked before behind : List Spot} {parts : List Part} {reading : Reading}
  {spot other : Spot}

/-! ### What leaves no trace -/

theorem Traces.explorable_of_call (traces : Traces (.call name) ahead asked reading)
    (flat : isFlat name = true) (enough : ranks.length ≤ room) : Explorable room ⟨name, ahead⟩ := by
  obtain ⟨body, _, _, member, inside⟩ := traces.exists_body
  have holds : (⟨name, ahead⟩ : Spot).Holds _ _ := ⟨body, member, inside⟩
  exact (explorable_of_flat holds flat).mono ((of_decide_eq_true flat).trans_le enough)

theorem Traces.explorable_of_flat (traces : Traces node ahead asked reading)
    (flat : node.references.all isFlat = true) (enough : ranks.length ≤ room) :
    ∀ spot ∈ asked, Explorable room spot := by
  intro spot among
  obtain ⟨_, _, holds⟩ := traces.exists_holds among
  have flat := List.all_eq_true.mp flat _ (traces.mem_references among)
  exact (Dialect.explorable_of_flat holds flat).mono ((of_decide_eq_true flat).trans_le enough)

/-- Where the balance is even, only the parts of bodies are tracked, and what quotes hold. -/
theorem not_tracked (even : tally spot.ahead = some 0)
    (bare : spot.name ∉ quotedChars) (apart : ¬ Outer spot) :
    ¬ Tracked spot :=
  not_or.mpr ⟨not_inside even bare, apart⟩

private theorem not_outer (other : spot.name ∉ brackets) : ¬ Outer spot := fun outer =>
  other outer.named

private theorem Leads.quiet (leads : Leads ahead rest) (even : tally ahead = some 0) :
    Quiet Tracked ⟨"s-ignorable", ahead⟩ := by
  intro below reaches _
  obtain ⟨named, tallies, -⟩ := leads.of_reaches reaches
  have apart : ∀ name ∈ "s-ignorable" :: blanks,
      name ∉ quotedChars ∧ name ∉ brackets := by decide
  exact not_tracked (tallies.trans even) (apart _ named).1 (not_outer (apart _ named).2)

/-- What is asked for lies ahead. -/
theorem Traces.suffix_of_mem (traces : Traces node ahead asked reading) (among : spot ∈ asked) :
    spot.ahead <:+ ahead := by
  induction traces with
  | matched | missed =>
      obtain rfl := List.mem_singleton.mp among
      exact List.suffix_rfl
  | cons head _ inductionHead inductionTail | broken head _ inductionHead inductionTail =>
      rcases List.mem_append.mp among with among | among
      · exact inductionHead among
      · obtain ⟨chars, rfl⟩ := head.exists_chars
        exact (inductionTail among).trans (List.suffix_append _ _)
  | again head _ _ inductionHead inductionTail =>
      rcases List.mem_append.mp among with among | among
      · exact inductionHead among
      · obtain ⟨chars, rfl⟩ := head.exists_chars
        exact (inductionTail among).trans (List.suffix_append _ _)
  | next _ _ inductionHead inductionTail =>
      exact (List.mem_append.mp among).elim inductionHead inductionTail
  | stop _ induction | chosen _ induction | present _ induction | absent _ induction
  | exhausted _ induction | idle _ induction | notAhead _ induction | isAhead _ induction =>
      exact induction among
  | _ => cases among

theorem Spot.Asks.suffix (asks : spot.Asks other) : other.ahead <:+ spot.ahead := by
  obtain ⟨_, _, ⟨_, _, traces⟩, among⟩ := asks
  exact traces.suffix_of_mem among

theorem Spot.Reaches.suffix (reaches : spot.Reaches other) : other.ahead <:+ spot.ahead := by
  induction reaches with
  | refl => exact List.suffix_rfl
  | tail _ asks induction => exact asks.suffix.trans induction

/-- At the end of the text no quotes open. -/
theorem Spot.asks_at_end (ended : spot.ahead = [])
    (bare : spot.name ∉ quotedChars) (asks : spot.Asks other) :
    other.name ∉ quotedChars := by
  obtain ⟨asked, reading, ⟨body, member, traces⟩, among⟩ := asks
  obtain ⟨name, ahead⟩ := spot
  obtain rfl : ahead = [] := ended
  by_cases quotes : name ∈ ["quoted-string", "quoted-char"]
  · have misses : ∀ {nodes others : List Node} {single double : String},
        single.toList ≠ [] → double.toList ≠ [] →
        Traces (.first [.sequence (.literal single :: nodes),
          .sequence (.literal double :: others)]) [] [] none := by
      intro nodes others single double some some'
      refine .next (.stop (.otherLiteral ?_)) (.next (.stop (.otherLiteral ?_)) .noOther)
      · simpa using some
      · simpa using some'
    have silent : asked = [] := by
      simp only [List.mem_cons, List.not_mem_nil, or_false] at quotes
      rcases quotes with rfl | rfl
      · obtain rfl := body_unique member (by simp [rules]; rfl)
        exact (traces.unique (misses (by decide) (by decide))).1
      · obtain rfl := body_unique member (by simp [rules]; rfl)
        exact (traces.unique (misses (by decide) (by decide))).1
    rw [silent] at among
    cases among
  · have holds := check_of_mem (fun name body => name ∈ ["quoted-string", "quoted-char"] ||
      body.references.all (· ∉ quotedChars)) rfl member
    simp only [quotes, decide_false, Bool.false_or, List.all_eq_true] at holds
    exact of_decide_eq_true (holds _ (traces.mem_references among))

/-- At the end of the text nothing is tracked. -/
theorem quiet_at_end (ended : spot.ahead = [])
    (bare : spot.name ∉ quotedChars) : Quiet Tracked spot := by
  rintro below reaches -
  have bareBelow : below.ahead = [] ∧ below.name ∉ quotedChars := by
    induction reaches with
    | refl => exact ⟨ended, bare⟩
    | tail _ asks induction =>
        refine ⟨List.suffix_nil.mp (induction.1 ▸ asks.suffix),
          Spot.asks_at_end induction.1 induction.2 asks⟩
  exact not_tracked (by rw [bareBelow.1]; rfl) bareBelow.2 fun outer => outer.more bareBelow.1

/-! ### What comes next -/

/-- What a text goes on with in a new line: behind spaces and comments comes the head of a clause,
or nothing. -/
structure Onward (tail next : List Char) : Prop where
  leads : Leads ('\n' :: tail) next
  starts : next = [] ∨ ∃ asked read, Traces (.call "production-head") next asked (some read)

namespace Onward

variable (onward : Onward tail next)

include onward

private theorem opens : ∀ char ∈ next.head?, char.isAlpha = true ∨ char = '[' := by
  intro char first
  by_contra other
  rw [not_or] at other
  have refuses : Refuses 4 (.call "production-head") next := by
    refine refuses_head (fun other' member => ?_) fun bracket => ?_
    · obtain rfl := Option.some.inj (first.symm.trans member)
      simpa using other.1
    · exact absurd (Option.some.inj (first.symm.trans bracket)) other.2
  rcases onward.starts with rfl | ⟨_, _, traces⟩
  · cases first
  · cases refuses.reads rfl traces

/-- No sign between the phrases of a body comes next. -/
theorem not_prefix {text : String} {sign : Char} (spelled : text.toList.head? = some sign)
    (between : sign ∈ [':', '-', '|', ')', ']']) : ¬ text.toList <+: next := by
  rintro ⟨more, same⟩
  have first : next.head? = some sign := by
    obtain ⟨rest, start⟩ := eq_of_head? spelled
    rw [← same, start]
    rfl
  exact (plain_of_opensClause (onward.opens sign first)).2 between

end Onward

/-- What is read adds nothing to a balance that is even. -/
theorem Traces.even (traces : Traces node ahead asked (some (parts, rest)))
    (still : gain node = some 0) (even : tally ahead = some 0) : tally rest = some 0 := by
  rw [traces.tally_eq still] at even
  simpa using even

namespace Carries

variable {others : List Spot} {ahead' : List Char} {reading' : Reading}

/-- Spaces and comments are read in the place of other ones. -/
theorem blanks (leads : Leads ahead rest) (even : tally ahead = some 0)
    (enough : ranks.length ≤ room)
    (traces : Traces (.call "s-ignorable") ahead' others reading') :
    Carries tail room (.call "s-ignorable") [⟨"s-ignorable", ahead⟩] ahead' reading' := by
  refine ⟨others, traces, Mirrors.of_quiet ?_ ?_⟩
  · simpa using leads.quiet even
  · obtain ⟨rfl, -⟩ := traces_ignorable.mp traces
    simpa using traces.explorable_of_call (by decide) enough

/-- Spaces and comments before the end of the text are read alike if it goes on. -/
theorem ignorable (onward : Onward tail next)
    (traces : Traces (.call "s-ignorable") ahead asked (some (parts, rest)))
    (even : tally ahead = some 0) (more : rest ≠ []) (enough : ranks.length ≤ room) :
    Carries tail room (.call "s-ignorable") asked (ahead ++ '\n' :: tail)
      (some (parts, rest ++ '\n' :: tail)) := by
  obtain ⟨rfl, _, chars, _, _, split, run, same⟩ := traces_ignorable.mp traces
  cases same
  have closed : tally ahead ≠ none := by simp [even]
  obtain ⟨_, run'⟩ := (run.extend_ignored onward.leads closed).1 more
  exact blanks ⟨_, _, run⟩ even enough (traces_ignorable.mpr
    ⟨rfl, _, _, _, _, by rw [split, List.append_assoc], run', rfl⟩)

/-- Spaces and comments up to the end of the text go on up to what comes next. -/
theorem ignorable_end (onward : Onward tail next) (leads : Leads ahead [])
    (even : tally ahead = some 0) (enough : ranks.length ≤ room) :
    ∃ parts, Carries tail room (.call "s-ignorable") [⟨"s-ignorable", ahead⟩]
      (ahead ++ '\n' :: tail) (some (parts, next)) := by
  obtain ⟨_, _, run⟩ := leads
  have closed : tally ahead ≠ none := by simp [even]
  obtain ⟨chars, parts, traces⟩ := ((run.extend_ignored onward.leads closed).2 rfl).traces
  exact ⟨_, blanks ⟨_, _, run⟩ even enough traces⟩

/-- A row that needs a sign behind spaces and comments misses it also in the text that goes on. -/
theorem stops_at_sign {text : String} {sign : Char} (onward : Onward tail next)
    (traces : Traces (.sequence (.call "s-ignorable" :: .literal text :: nodes)) ahead asked none)
    (leads : Leads ahead rest) (differs : ¬ text.toList <+: rest)
    (spelled : text.toList.head? = some sign) (between : sign ∈ [':', '-', '|', ')', ']'])
    (inline : '\n' ∉ text.toList) (even : tally ahead = some 0) (enough : ranks.length ≤ room) :
    Carries tail room (.sequence (.call "s-ignorable" :: .literal text :: nodes)) asked
      (ahead ++ '\n' :: tail) none := by
  obtain ⟨chars, parts, gap⟩ := leads.traces
  have row : Traces (.sequence (.call "s-ignorable" :: .literal text :: nodes)) ahead
      ([⟨"s-ignorable", ahead⟩] ++ []) none := .broken gap (.stop (.otherLiteral differs))
  obtain ⟨rfl, -⟩ := traces.unique row
  by_cases ended : rest = []
  · subst ended
    obtain ⟨_, carries⟩ := ignorable_end onward leads even enough
    exact carries.broken (stop (otherLiteral (onward.not_prefix spelled between)))
  · exact (ignorable onward gap even ended enough).broken
      (stop (otherLiteral (not_prefix_extend inline differs)))

end Carries

/-! ### Heads -/

/-- No section number lies ahead, and this has nothing to do with the end of the text. -/
structure Unnumbered (ahead : List Char) : Prop where
  misses : ∃ asked, Traces (.call "section-number") ahead asked none
  kept : (⟨"section-number", ahead⟩ : Spot).Kept

private theorem Spot.kept_of_unbounded (other : spot.name ≠ "grammar")
    (needs : brink spot.name = none) :
    spot.Kept :=
  Above.kept ⟨other, needs ▸ atLeast_none⟩

private theorem unnumbered_of_holds
    (holds : (⟨"section-number", ahead⟩ : Spot).Holds asked none)
    (kept : ∀ spot ∈ asked, spot.Kept) : Unnumbered ahead where
  misses := ⟨_, traces_call.mpr ⟨rfl, .inr ⟨_, holds, rfl⟩⟩⟩
  kept := Spot.kept_of_holds holds ⟨by simp, by simp, by simp⟩ kept

theorem unnumbered_of_ne (other : ahead.head? ≠ some '[') : Unnumbered ahead := by
  have differs : ¬ "[".toList <+: ahead := by
    rintro ⟨more, rfl⟩
    exact other rfl
  exact unnumbered_of_holds ((holds_iff (by simp [rules]; rfl)).mpr (.stop (.otherLiteral differs)))
    (by simp)

/-- A bracket opens a section number or an operand, but not both. -/
theorem number_of_quantified
    (traces : Traces (.call "quantified") ahead asked (some (parts, rest)))
    (bracket : ahead.head? = some '[') :
    ∀ char ∈ ahead.tail.head?, (char.isDigit || char = '-') = false := by
  obtain ⟨behind, rfl⟩ := eq_of_head? bracket
  intro char first
  have first : behind.head? = some char := first
  obtain ⟨more, rfl⟩ := eq_of_head? first
  by_contra number
  have refuses : Refuses 5 (.call "quantified") ('[' :: char :: more) :=
    refuses_quantified_of_number (by simpa only [Bool.not_eq_false] using number)
  cases refuses.reads rfl traces

private theorem unnumbered_of_quantified
    (traces : Traces (.call "quantified") ahead asked (some (parts, rest))) :
    Unnumbered ahead := by
  by_cases bracket : ahead.head? = some '['
  · have other := number_of_quantified traces bracket
    obtain ⟨behind, rfl⟩ := eq_of_head? bracket
    obtain ⟨_, misses⟩ := (refuses_decimal other : Refuses 2 _ _).exists_traces rfl
    obtain ⟨rfl, -⟩ := traces_call.mp misses
    refine unnumbered_of_holds ((holds_iff (by simp [rules]; exact ⟨rfl, rfl⟩)).mpr
      (.broken (.literal rfl) (.stop misses))) ?_
    simp only [List.nil_append, List.mem_singleton, forall_eq]
    exact Spot.kept_of_unbounded (by simp) (by rfl)
  · exact unnumbered_of_ne bracket

namespace Carries

/-- Lexemes do not notice the end of the text. -/
theorem lexeme (traces : Traces node ahead asked reading)
    (stays : staysAbove brink none node = true) (flat : node.references.all isFlat = true)
    (inline : isInline node = true) (enough : ranks.length ≤ room) :
    Carries tail room node asked (ahead ++ '\n' :: tail) (Reading.extend tail reading) := by
  refine of_kept traces inline (fun spot among => (traces.above stays atLeast_none spot among).kept)
    fun spot among => fits_flat ?_ enough
  exact List.all_eq_true.mp flat _ (traces.mem_references among)

/-- What is not the head of a clause is none either if the text goes on. -/
theorem head (onward : Onward tail next) (unnumbered : Unnumbered ahead)
    (traces : Traces (.call "production-head") ahead asked none) (even : tally ahead = some 0)
    (enough : ranks.length ≤ room) :
    Carries tail (room + 1) (.call "production-head") asked (ahead ++ '\n' :: tail) none := by
  obtain ⟨rfl, ⟨_, _, _, _, -, -, none⟩ | ⟨inner, holds, -⟩⟩ := traces_call.mp traces
  · cases none
  have member : ("production-head", .sequence [.optional (.call "section-number"),
      .call "production-name", .optional (.call "parameter-list"), .call "s-ignorable",
      .literal "::="]) ∈ rules := by simp [rules]
  have inside := (holds_iff member).mp holds
  have carries : Carries tail room (.sequence [.optional (.call "section-number"),
      .call "production-name", .optional (.call "parameter-list"), .call "s-ignorable",
      .literal "::="]) inner (ahead ++ '\n' :: tail) none := by
    obtain ⟨number, -⟩ | ⟨_, _, _, _, later, number, row, rfl, none⟩ :=
      traces_sequence_cons.mp inside
    · obtain ⟨_, none, -⟩ | ⟨-, none⟩ := traces_optional.mp number <;> cases none
    obtain rfl := Reading.prepend_eq_none_iff.mp none.symm
    -- There is no section number, so the head starts with its name.
    obtain ⟨_, same, found⟩ | ⟨misses, same⟩ := traces_optional.mp number
    · obtain ⟨_, misses⟩ := unnumbered.misses
      cases (found.unique misses).2
    cases same
    obtain ⟨rfl, -⟩ := traces_call.mp misses
    have absent : Carries tail room (.optional (.call "section-number"))
        [⟨"section-number", ahead⟩] (ahead ++ '\n' :: tail) (some ([], ahead ++ '\n' :: tail)) := by
      refine of_kept number rfl ?_ ?_ <;> simp only [List.mem_singleton, forall_eq]
      · exact unnumbered.kept
      · exact fits_flat (by simp; decide) enough
    refine absent.broken ?_
    obtain ⟨name, -⟩ | ⟨_, _, _, middle, _, name, row, rfl, none⟩ := traces_sequence_cons.mp row
    · exact stop (lexeme name rfl (by decide) rfl enough)
    obtain rfl := Reading.prepend_eq_none_iff.mp none.symm
    have even := name.even rfl even
    refine (lexeme name rfl (by decide) rfl enough).broken ?_
    obtain ⟨list, -⟩ | ⟨_, _, _, last, _, list, row, rfl, none⟩ := traces_sequence_cons.mp row
    · obtain ⟨_, none, -⟩ | ⟨-, none⟩ := traces_optional.mp list <;> cases none
    obtain rfl := Reading.prepend_eq_none_iff.mp none.symm
    have even := list.even rfl even
    refine (lexeme list rfl (by decide) rfl enough).broken ?_
    -- The sign of a definition is missed behind the spaces and comments.
    obtain ⟨gap, -⟩ | ⟨_, _, _, _, _, gap, sign, -, none⟩ := traces_sequence_cons.mp row
    · obtain ⟨_, _, _, _, _, _, _, none⟩ := traces_ignorable.mp gap
      cases none
    obtain rfl := Reading.prepend_eq_none_iff.mp none.symm
    obtain ⟨-, _, _, _, _, -, run, same⟩ := traces_ignorable.mp gap
    cases same
    refine stops_at_sign onward row ⟨_, _, run⟩ ?_ rfl (by decide : ':' ∈ _) (by decide) even enough
    rintro ⟨more, rfl⟩
    cases (sign.unique (.cons (.literal rfl) .nil)).2
  obtain ⟨_, traces', -⟩ := id carries
  refine call_missed holds member ?_ ?_ carries
  · exact not_tracked even (by simp [quotedChars]) (not_outer (by simp [brackets]))
  · exact (Traces.missed member traces').explorable_of_call (by decide)
      (enough.trans (Nat.le_succ _))

end Carries

/-! ### Phrases -/

/-- An operand opens with a character that opens an atom. -/
theorem opens_of_quantified
    (traces : Traces (.call "quantified") ahead asked (some (parts, rest))) :
    ∃ char more, ahead = char :: more ∧ opensAtom char = true := by
  by_contra other
  have refuses : Refuses 5 (.call "quantified") ahead := by
    refine refuses_quantified fun char first => ?_
    obtain ⟨more, rfl⟩ := eq_of_head? first
    by_contra opens
    exact other ⟨char, more, rfl, by simpa using opens⟩
  cases refuses.reads rfl traces

theorem exists_quantified
    (traces : Traces (.call "difference") ahead asked (some (parts, rest))) :
    ∃ asked parts middle, Traces (.call "quantified") ahead asked (some (parts, middle)) ∧
      rest <:+ middle := by
  obtain ⟨-, ⟨_, _, _, _, holds, -, same⟩ | ⟨_, _, none⟩⟩ := traces_call.mp traces
  · cases same
    have inside := (holds_iff (by simp [rules]; rfl)).mp holds
    obtain ⟨_, _, _, _, _, first, row, -, -⟩ := traces_sequence_cons_some.mp inside
    obtain ⟨_, split⟩ := row.exists_chars
    exact ⟨_, _, _, first, split ▸ List.suffix_append _ _⟩
  · cases none

private theorem exists_difference
    (traces : Traces (.call "sequence") ahead asked (some (parts, rest))) :
    ∃ asked parts middle, Traces (.call "difference") ahead asked (some (parts, middle)) := by
  obtain ⟨-, ⟨_, _, _, _, holds, -, -⟩ | ⟨_, _, none⟩⟩ := traces_call.mp traces
  · have inside := (holds_iff (by simp [rules]; rfl)).mp holds
    obtain ⟨_, _, _, _, _, first, -, -, -⟩ := traces_sequence_cons_some.mp inside
    exact ⟨_, _, _, first⟩
  · cases none

private theorem opens_of_sequence
    (traces : Traces (.call "sequence") ahead asked (some (parts, rest))) :
    ∃ char more, ahead = char :: more ∧ opensAtom char = true := by
  obtain ⟨_, _, _, first⟩ := exists_difference traces
  obtain ⟨_, _, _, operand, -⟩ := exists_quantified first
  exact opens_of_quantified operand

/-- A sign between spaces and comments, and a phrase behind it. -/
def signed (sign name : String) : Node :=
  .sequence [.call "s-ignorable", .literal sign, .call "s-ignorable", .call name]

theorem traces_signed_some {sign : String}
    (traces : Traces (signed sign name) ahead asked (some (parts, rest))) :
    ∃ before behind inner first second content middle last,
      Traces (.call "s-ignorable") ahead before (some (first, sign.toList ++ middle)) ∧
      Traces (.call "s-ignorable") middle behind (some (second, last)) ∧
      Traces (.call name) last inner (some (content, rest)) ∧
      asked = before ++ ([] ++ (behind ++ (inner ++ []))) ∧
        parts = first ++ ([] ++ (second ++ (content ++ []))) := by
  obtain ⟨_, _, _, _, _, gap, others, rfl, rfl⟩ := traces_sequence_cons_some.mp traces
  obtain ⟨_, _, _, _, _, mark, spaced, rfl, rfl⟩ := traces_sequence_cons_some.mp others
  obtain ⟨rfl, rfl, rfl⟩ := traces_literal_some.mp mark
  obtain ⟨_, _, _, _, _, gap', single, rfl, rfl⟩ := traces_sequence_cons_some.mp spaced
  obtain ⟨_, _, _, _, _, phrase, none, rfl, rfl⟩ := traces_sequence_cons_some.mp single
  obtain ⟨rfl, same⟩ := traces_sequence_nil.mp none
  cases same
  exact ⟨_, _, _, _, _, _, _, _, gap, gap', phrase, rfl, rfl⟩

theorem traces_continuation_some
    (traces : Traces continuation ahead asked (some (parts, rest))) :
    ∃ before behind inner first content middle,
      Traces (.call "s-ignorable") ahead before (some (first, middle)) ∧
      Traces (.call "production-head") middle behind none ∧
      Traces (.call "difference") middle inner (some (content, rest)) ∧
      asked = before ++ (behind ++ (inner ++ [])) ∧ parts = first ++ ([] ++ (content ++ [])) := by
  obtain ⟨_, _, _, _, _, gap, guarded, rfl, rfl⟩ := traces_sequence_cons_some.mp traces
  obtain ⟨_, _, _, _, _, guard, single, rfl, rfl⟩ := traces_sequence_cons_some.mp guarded
  obtain ⟨_, _, _, _, _, part, none, rfl, rfl⟩ := traces_sequence_cons_some.mp single
  obtain ⟨rfl, same⟩ := traces_sequence_nil.mp none
  cases same
  obtain ⟨misses, same⟩ | ⟨_, -, none⟩ := traces_notAhead.mp guard
  · cases same
    exact ⟨_, _, _, _, _, _, gap, misses, part, rfl, rfl⟩
  · cases none

/-- Behind a part of a row comes what follows the row, or another operand. -/
theorem exists_leads_of_parts {last : List Char}
    (traces : Traces (.zeroOrMore continuation) ahead asked (some (parts, rest)))
    (leads : Leads rest last) : ∃ behind, Leads ahead behind ∧
      (behind = last ∨ ∃ asked parts middle,
        Traces (.call "quantified") behind asked (some (parts, middle)) ∧ rest <:+ middle) := by
  obtain ⟨-, same⟩ | ⟨_, -, same⟩ | ⟨_, _, _, _, _, _, once, -, later, -, same⟩ :=
    traces_zeroOrMore.mp traces
  · cases same
    exact ⟨last, leads, .inl rfl⟩
  · cases same
    exact ⟨last, leads, .inl rfl⟩
  · cases same
    obtain ⟨_, _, _, _, _, behind, gap, -, part, -⟩ := traces_continuation_some once
    obtain ⟨_, split⟩ := later.exists_chars
    obtain ⟨_, _, _, operand, suffix⟩ := exists_quantified part
    exact ⟨behind, .of_call gap, .inr
      ⟨_, _, _, operand, (split ▸ List.suffix_append _ _ : _ <:+ _).trans suffix⟩⟩

namespace Carries

variable {child : Node} {last : List Char}

private theorem literal_on {text : String} :
    Carries tail room (.literal text) [] (text.toList ++ rest ++ '\n' :: tail)
      (some ([], rest ++ '\n' :: tail)) := by
  rw [List.append_assoc]
  exact literal

/-- A repetition stops at the same place if each of its matches is read alike, and what ends it is
missed in the text that goes on, too. -/
theorem repeats (traces : Traces (.zeroOrMore child) ahead asked (some (parts, rest)))
    (even : tally ahead = some 0) (still : gain child = some 0)
    (stop : ∀ {asked}, Traces child rest asked none → tally rest = some 0 →
      Carries tail room child asked (rest ++ '\n' :: tail) none)
    (stay : ∀ {asked parts}, ¬ Traces child rest asked (some (parts, rest)))
    (step : ∀ {ahead before behind parts more middle}, Traces child ahead before
      (some (parts, middle)) → Traces (.zeroOrMore child) middle behind (some (more, rest)) →
      tally ahead = some 0 → Carries tail room child before (ahead ++ '\n' :: tail)
        (some (parts, middle ++ '\n' :: tail))) :
    Carries tail room (.zeroOrMore child) asked (ahead ++ '\n' :: tail)
      (some (parts, rest ++ '\n' :: tail)) := by
  generalize same : Node.zeroOrMore child = node at traces
  generalize read : some (parts, rest) = reading at traces
  induction traces generalizing parts rest with
  | exhausted misses =>
      cases same
      cases read
      exact absent (stop misses even)
  | idle once =>
      cases same
      cases read
      exact absurd once stay
  | again head moves later _ induction =>
      cases same
      cases read
      exact again (step head later even) (by simpa using moves)
        (induction (head.even still even) stop stay step rfl rfl)
  | _ => cases same

/-- The parts of a body ask for the same outside of brackets. -/
theorem quantified (traces : Traces (.call "quantified") ahead asked reading)
    (even : tally ahead = some 0) (more : ahead ≠ [])
    (enough : ranks.length + brackets.length ≤ room) :
    Carries tail room (.call "quantified") asked (ahead ++ '\n' :: tail)
      (Reading.extend tail reading) := by
  have outer : Outer ⟨"quantified", ahead⟩ := ⟨by simp [brackets], even, more⟩
  have lower : brackets.idxOf "quantified" < brackets.length := by decide
  obtain ⟨rfl, -⟩ := traces_call.mp traces
  refine of_kept traces rfl ?_ ?_ <;> simp only [List.mem_singleton, forall_eq]
  · exact outer.above.kept
  · exact .inr (.inl ⟨outer, (Nat.add_lt_add_left lower _).trans_le enough⟩)

/-- A phrase behind a sign is read alike if the phrase is. -/
theorem behind_sign {sign : String} (onward : Onward tail next) (marks : sign.toList ≠ [])
    (still : gain (.literal sign) = some 0) (enough : ranks.length ≤ room)
    (traces : Traces (signed sign name) ahead asked (some (parts, rest)))
    (even : tally ahead = some 0)
    (phrase : ∀ {ahead asked parts}, Traces (.call name) ahead asked (some (parts, rest)) →
      tally ahead = some 0 → ahead ≠ [] ∧ Carries tail room (.call name) asked
        (ahead ++ '\n' :: tail) (some (parts, rest ++ '\n' :: tail))) :
    Carries tail room (signed sign name) asked (ahead ++ '\n' :: tail)
      (some (parts, rest ++ '\n' :: tail)) := by
  obtain ⟨_, _, _, _, _, _, middle, _, gap, gap', inside, rfl, rfl⟩ := traces_signed_some traces
  have mark : Traces (.literal sign) (sign.toList ++ middle) [] _ := .literal rfl
  have even' := mark.even still (gap.even rfl even)
  obtain ⟨more, carries⟩ := phrase inside (gap'.even rfl even')
  exact (ignorable onward gap even (by simp [marks]) enough).cons (literal_on.cons
    ((ignorable onward gap' even' more enough).cons (carries.cons nil)))

private theorem exclusions (onward : Onward tail next)
    (traces : Traces (.zeroOrMore exclusion) ahead asked (some (parts, rest)))
    (even : tally ahead = some 0) (leads : Leads rest last) (clear : last.head? ≠ some '-')
    (enough : ranks.length + brackets.length ≤ room) :
    Carries tail room (.zeroOrMore exclusion) asked (ahead ++ '\n' :: tail)
      (some (parts, rest ++ '\n' :: tail)) := by
  have flat : ranks.length ≤ room := le_trans (Nat.le_add_right _ _) enough
  refine repeats traces even rfl ?_ ?_ ?_
  · intro asked misses even
    refine stops_at_sign onward misses leads ?_ rfl (by decide : '-' ∈ _) (by decide) even flat
    rintro ⟨more, rfl⟩
    exact clear rfl
  · intro asked parts once
    obtain ⟨_, _, _, _, _, _, _, _, gap, -⟩ := traces_signed_some once
    obtain rfl := leads.unique (.of_call gap)
    exact clear rfl
  · intro ahead before behind parts more middle once _ even
    refine behind_sign onward (by decide) rfl flat once even fun operand even => ?_
    obtain ⟨char, more, rfl, -⟩ := opens_of_quantified operand
    exact ⟨by simp, quantified operand even (by simp) enough⟩

/-- A difference ends at the same place where no other operand is excluded. -/
theorem difference (onward : Onward tail next)
    (traces : Traces (.call "difference") ahead asked (some (parts, rest)))
    (even : tally ahead = some 0) (leads : Leads rest last) (clear : last.head? ≠ some '-')
    (enough : ranks.length + brackets.length ≤ room) :
    Carries tail (room + 1) (.call "difference") asked (ahead ++ '\n' :: tail)
      (some (parts, rest ++ '\n' :: tail)) := by
  obtain ⟨rfl, ⟨_, _, _, _, holds, split, same⟩ | ⟨_, _, none⟩⟩ := traces_call.mp traces
  · cases same
    have member :
        ("difference", .sequence [.call "quantified", .zeroOrMore exclusion]) ∈ rules := by
      simp [rules, exclusion]
    have inside := (holds_iff member).mp holds
    refine call_matched holds member (by rw [split, List.append_assoc]) ?_
    obtain ⟨_, _, _, _, _, first, row, rfl, rfl⟩ := traces_sequence_cons_some.mp inside
    obtain ⟨_, _, _, _, _, others, none, rfl, rfl⟩ := traces_sequence_cons_some.mp row
    obtain ⟨rfl, same⟩ := traces_sequence_nil.mp none
    cases same
    obtain ⟨char, more, rfl, -⟩ := opens_of_quantified first
    exact (quantified first even (by simp) enough).cons
      ((exclusions onward others (first.even rfl even) leads clear enough).cons nil)
  · cases none

/-- Where no operand opens, no part of a row is there. -/
theorem missed_difference (traces : Traces (.call "difference") ahead asked none)
    (others : ∀ char ∈ ahead.head?, opensAtom char = false) (even : tally ahead = some 0)
    (more : ahead ≠ []) (enough : ranks.length + brackets.length ≤ room) :
    Carries tail (room + 1) (.call "difference") asked (ahead ++ '\n' :: tail) none := by
  have member : ("difference", .sequence [.call "quantified", .zeroOrMore exclusion]) ∈ rules := by
    simp [rules, exclusion]
  obtain ⟨rfl, -⟩ := traces_call.mp traces
  obtain ⟨_, misses⟩ := (refuses_quantified others : Refuses 5 _ ahead).exists_traces rfl
  have others' : ∀ char ∈ (ahead ++ '\n' :: tail).head?, opensAtom char = false := by
    obtain ⟨char, behind, rfl⟩ := List.exists_cons_of_ne_nil more
    exact others
  have enough' : 7 ≤ room + 1 := le_trans (by decide) (enough.trans (Nat.le_succ _))
  refine call_missed ⟨_, member, .stop misses⟩ member ?_
    ((refuses_difference others').explorable.mono enough')
    (stop (quantified misses even more enough))
  exact not_tracked even (by simp [quotedChars]) (not_outer (by simp [brackets]))

/-- A row stops at the end of the text and at the sign of the next alternative. What comes next in
the text that goes on is the head of a clause, or nothing. -/
theorem stops_row (onward : Onward tail next) (traces : Traces continuation ahead asked none)
    (even : tally ahead = some 0) (leads : Leads ahead last)
    (ends : last = [] ∨ last.head? = some '|') (enough : ranks.length + brackets.length ≤ room) :
    Carries tail (room + 1) continuation asked (ahead ++ '\n' :: tail) none := by
  have flat : ranks.length ≤ room := le_trans (Nat.le_add_right _ _) enough
  have flat' : ranks.length ≤ room + 1 := flat.trans (Nat.le_succ _)
  obtain ⟨_, _, gap⟩ := leads.traces
  obtain ⟨misses, -⟩ | ⟨_, behind, _, _, _, gap', row, rfl, none⟩ := traces_sequence_cons.mp traces
  · cases (misses.unique gap).2
  obtain rfl := Reading.prepend_eq_none_iff.mp none.symm
  obtain ⟨rfl, same⟩ := gap'.unique gap
  cases same
  rcases ends with rfl | bar
  · obtain ⟨_, carries⟩ := ignorable_end onward leads even flat'
    refine carries.broken ?_
    have named : ∀ spot ∈ behind, spot.name ∈ ["production-head", "difference"] ∧
        spot.ahead = [] := fun spot among =>
      ⟨row.mem_references among, List.suffix_nil.mp (row.suffix_of_mem among)⟩
    have quiet : ∀ spot ∈ behind, Quiet Tracked spot := by
      intro spot among
      have bare : ∀ name ∈ ["production-head", "difference"], name ∉ quotedChars := by decide
      exact quiet_at_end (named spot among).2 (bare _ (named spot among).1)
    rcases onward.starts with rfl | ⟨_, _, head⟩
    · refine ⟨behind, row, .of_quiet quiet fun spot among => ?_⟩
      obtain ⟨named, ended⟩ := named spot among
      obtain ⟨name, place⟩ := spot
      obtain rfl : place = [] := ended
      have enough' : 7 ≤ room + 1 := le_trans (by decide) flat'
      simp only [List.mem_cons, List.not_mem_nil, or_false] at named
      rcases named with rfl | rfl
      · have refuses : Refuses 4 (.call "production-head") [] := refuses_head (by simp) (by simp)
        exact refuses.explorable.mono (le_trans (by decide) enough')
      · exact (refuses_difference (by simp)).explorable.mono enough'
    · obtain ⟨rfl, -⟩ := traces_call.mp head
      refine ⟨_, .stop (.isAhead head), .of_quiet quiet ?_⟩
      simpa using head.explorable_of_call (by decide) flat'
  · obtain ⟨more, rfl⟩ := eq_of_head? bar
    have even := gap.even rfl even
    have others : ∀ char ∈ ('|' :: more).head?, opensAtom char = false := by simp; decide
    refine (ignorable onward gap ‹tally ahead = some 0› (by simp) flat').broken ?_
    obtain ⟨guard, -⟩ | ⟨_, _, _, _, _, guard, single, rfl, none⟩ := traces_sequence_cons.mp row
    · obtain ⟨-, none⟩ | ⟨_, found, -⟩ := traces_notAhead.mp guard
      · cases none
      · have refuses : Refuses 4 (.call "production-head") ('|' :: more) :=
          refuses_head (by simp) (by simp)
        cases refuses.reads rfl found
    obtain rfl := Reading.prepend_eq_none_iff.mp none.symm
    obtain ⟨misses, same⟩ | ⟨_, _, none⟩ := traces_notAhead.mp guard
    · cases same
      refine (notAhead (head onward (unnumbered_of_ne (by simp)) misses even flat)).broken ?_
      obtain ⟨part, -⟩ | ⟨_, _, _, _, _, part, -⟩ := traces_sequence_cons.mp single
      · exact stop (missed_difference part others even (by simp) enough)
      · cases (refuses_difference others : Refuses 7 _ _).reads rfl part
    · cases none

/-- Behind a part of a row no other operand is excluded. -/
theorem exists_leads_of_continuations
    (traces : Traces (.zeroOrMore continuation) ahead asked (some (parts, rest)))
    (leads : Leads rest last) (ends : last = [] ∨ last.head? = some '|') :
    ∃ behind, Leads ahead behind ∧ behind.head? ≠ some '-' := by
  obtain ⟨behind, gap, rfl | ⟨_, _, _, operand, -⟩⟩ := exists_leads_of_parts traces leads
  · refine ⟨behind, gap, ?_⟩
    rcases ends with rfl | bar
    · simp
    · simp [bar]
  · obtain ⟨char, more, rfl, opens⟩ := opens_of_quantified operand
    refine ⟨_, gap, ?_⟩
    rintro ⟨rfl⟩
    exact absurd opens (by decide)

private theorem continuations (onward : Onward tail next)
    (traces : Traces (.zeroOrMore continuation) ahead asked (some (parts, rest)))
    (even : tally ahead = some 0) (leads : Leads rest last)
    (ends : last = [] ∨ last.head? = some '|') (enough : ranks.length + brackets.length ≤ room) :
    Carries tail (room + 1) (.zeroOrMore continuation) asked (ahead ++ '\n' :: tail)
      (some (parts, rest ++ '\n' :: tail)) := by
  have flat : ranks.length ≤ room := le_trans (Nat.le_add_right _ _) enough
  refine repeats traces even rfl
    (fun misses even => stops_row onward misses even leads ends enough) ?_ ?_
  · intro asked parts once
    obtain ⟨_, _, _, _, _, _, gap, -, part, -⟩ := traces_continuation_some once
    obtain rfl := leads.unique (.of_call gap)
    obtain ⟨_, _, _, operand, -⟩ := exists_quantified part
    obtain ⟨char, more, rfl, opens⟩ := opens_of_quantified operand
    rcases ends with none | bar
    · cases none
    · cases bar
      exact absurd opens (by decide)
  · intro ahead before behind parts more middle once later even
    obtain ⟨_, _, _, _, _, _, gap, misses, part, rfl, rfl⟩ := traces_continuation_some once
    obtain ⟨last', leads', clear⟩ := exists_leads_of_continuations later leads ends
    obtain ⟨_, _, _, operand, -⟩ := exists_quantified part
    have unnumbered := unnumbered_of_quantified operand
    obtain ⟨char, behind, rfl, -⟩ := opens_of_quantified operand
    have even' := gap.even rfl even
    exact (ignorable onward gap even (by simp) (flat.trans (Nat.le_succ _))).cons
      ((notAhead (head onward unnumbered misses even' flat)).cons
        ((difference onward part even' leads' clear enough).cons nil))

/-- A row ends at the same place at the end of the text and before another alternative. -/
theorem sequence (onward : Onward tail next)
    (traces : Traces (.call "sequence") ahead asked (some (parts, rest)))
    (even : tally ahead = some 0) (leads : Leads rest last)
    (ends : last = [] ∨ last.head? = some '|') (enough : ranks.length + brackets.length ≤ room) :
    Carries tail (room + 2) (.call "sequence") asked (ahead ++ '\n' :: tail)
      (some (parts, rest ++ '\n' :: tail)) := by
  obtain ⟨rfl, ⟨_, _, _, _, holds, split, same⟩ | ⟨_, _, none⟩⟩ := traces_call.mp traces
  · cases same
    have member :
        ("sequence", .sequence [.call "difference", .zeroOrMore continuation]) ∈ rules := by
      simp [rules, continuation]
    have inside := (holds_iff member).mp holds
    refine call_matched holds member (by rw [split, List.append_assoc]) ?_
    obtain ⟨_, _, _, _, _, first, row, rfl, rfl⟩ := traces_sequence_cons_some.mp inside
    obtain ⟨_, _, _, _, _, others, none, rfl, rfl⟩ := traces_sequence_cons_some.mp row
    obtain ⟨rfl, same⟩ := traces_sequence_nil.mp none
    cases same
    obtain ⟨last', leads', clear⟩ := exists_leads_of_continuations others leads ends
    exact (difference onward first even leads' clear enough).cons
      ((continuations onward others (first.even rfl even) leads ends enough).cons nil)
  · cases none

/-- Behind a row comes the end of the text, or the sign of the next alternative. -/
theorem exists_leads_of_alternatives
    (traces : Traces (.zeroOrMore alternative) ahead asked (some (parts, rest)))
    (leads : Leads rest []) :
    ∃ behind, Leads ahead behind ∧ (behind = [] ∨ behind.head? = some '|') := by
  obtain ⟨-, same⟩ | ⟨_, -, same⟩ | ⟨_, _, _, _, _, _, once, -, -, -, -⟩ :=
    traces_zeroOrMore.mp traces
  · cases same
    exact ⟨[], leads, .inl rfl⟩
  · cases same
    exact ⟨[], leads, .inl rfl⟩
  · obtain ⟨_, _, _, _, _, _, _, _, gap, -⟩ := traces_signed_some once
    exact ⟨_, .of_call gap, .inr rfl⟩

private theorem alternatives (onward : Onward tail next)
    (traces : Traces (.zeroOrMore alternative) ahead asked (some (parts, rest)))
    (even : tally ahead = some 0) (leads : Leads rest [])
    (enough : ranks.length + brackets.length ≤ room) :
    Carries tail (room + 2) (.zeroOrMore alternative) asked (ahead ++ '\n' :: tail)
      (some (parts, rest ++ '\n' :: tail)) := by
  have flat : ranks.length ≤ room + 2 :=
    le_trans (Nat.le_add_right _ _) (enough.trans (Nat.le_add_right _ _))
  refine repeats traces even rfl ?_ ?_ ?_
  · intro asked misses even
    exact stops_at_sign onward misses leads (by simp) rfl (by decide : '|' ∈ _) (by decide) even
      flat
  · intro asked parts once
    obtain ⟨_, _, _, _, _, _, _, _, gap, -⟩ := traces_signed_some once
    have none := leads.unique (.of_call gap)
    simp at none
  · intro ahead before behind parts more middle once later even
    obtain ⟨last, leads', ends⟩ := exists_leads_of_alternatives later leads
    refine behind_sign onward (by decide) rfl flat once even fun row even => ?_
    obtain ⟨char, more, rfl, -⟩ := opens_of_sequence row
    exact ⟨by simp, sequence onward row even leads' ends enough⟩

/-- A body up to the end of the text ends at the same place if the text goes on. -/
theorem alternation (onward : Onward tail next)
    (traces : Traces (.call "alternation") ahead asked (some (parts, rest)))
    (even : tally ahead = some 0) (leads : Leads rest [])
    (enough : ranks.length + brackets.length ≤ room) :
    Carries tail (room + 3) (.call "alternation") asked (ahead ++ '\n' :: tail)
      (some (parts, rest ++ '\n' :: tail)) := by
  have flat : ranks.length ≤ room + 2 :=
    le_trans (Nat.le_add_right _ _) (enough.trans (Nat.le_add_right _ _))
  obtain ⟨rfl, ⟨_, _, _, _, holds, split, same⟩ | ⟨_, _, none⟩⟩ := traces_call.mp traces
  · cases same
    have member : ("alternation", .sequence
        [.call "s-ignorable", .call "sequence", .zeroOrMore alternative]) ∈ rules := by
      simp [rules, alternative]
    have inside := (holds_iff member).mp holds
    refine call_matched holds member (by rw [split, List.append_assoc]) ?_
    obtain ⟨_, _, _, _, _, gap, rows, rfl, rfl⟩ := traces_sequence_cons_some.mp inside
    obtain ⟨_, _, _, _, _, first, row, rfl, rfl⟩ := traces_sequence_cons_some.mp rows
    obtain ⟨_, _, _, _, _, others, none, rfl, rfl⟩ := traces_sequence_cons_some.mp row
    obtain ⟨rfl, same⟩ := traces_sequence_nil.mp none
    cases same
    obtain ⟨last, leads', ends⟩ := exists_leads_of_alternatives others leads
    obtain ⟨char, more, rfl, -⟩ := opens_of_sequence first
    have even' := gap.even rfl even
    exact (ignorable onward gap even (by simp) flat).cons
      ((sequence onward first even' leads' ends enough).cons
        ((alternatives onward others (first.even rfl even') leads enough).cons nil))
  · cases none

end Carries

/-! ### Clauses -/

theorem traces_sequence_append_some {others : List Node}
    (traces : Traces (.sequence (nodes ++ others)) ahead asked (some (parts, rest))) :
    ∃ before behind first middle more,
      Traces (.sequence nodes) ahead before (some (first, middle)) ∧
      Traces (.sequence others) middle behind (some (more, rest)) ∧ asked = before ++ behind ∧
        parts = first ++ more := by
  induction nodes generalizing ahead asked parts with
  | nil => exact ⟨[], asked, [], ahead, parts, .nil, traces, rfl, rfl⟩
  | cons node nodes induction =>
      obtain ⟨_, _, _, _, _, head, row, rfl, rfl⟩ := traces_sequence_cons_some.mp traces
      obtain ⟨_, _, _, _, _, left, right, rfl, rfl⟩ := induction row
      exact ⟨_, _, _, _, _, .cons head left, right, (List.append_assoc ..).symm,
        (List.append_assoc ..).symm⟩

theorem Traces.append {others : List Node} {middle : List Char} {more : List Part}
    (left : Traces (.sequence nodes) ahead before (some (parts, middle)))
    (right : Traces (.sequence others) middle behind (some (more, rest))) :
    Traces (.sequence (nodes ++ others)) ahead (before ++ behind) (some (parts ++ more, rest)) := by
  induction nodes generalizing ahead before parts with
  | nil =>
      obtain ⟨rfl, same⟩ := traces_sequence_nil.mp left
      cases same
      exact right
  | cons node nodes induction =>
      obtain ⟨_, _, _, _, _, head, row, rfl, rfl⟩ := traces_sequence_cons_some.mp left
      rw [List.append_assoc, List.append_assoc]
      exact .cons head (induction row)

/-- What a clause has before its body. -/
def opening : List Node :=
  [.call "s-ignorable", .optional (.call "section-number"), .call "production-name",
    .optional (.call "parameter-list"), .call "s-ignorable", .literal "::="]

theorem mem_production : ("production", .sequence (opening ++ [.call "alternation"])) ∈ rules := by
  simp [rules, opening]

theorem mem_head : ("production-head", .sequence opening.tail) ∈ rules := by
  simp [rules, opening]

/-- The last clause of a text ends at the same place if the text goes on. -/
theorem Carries.production (onward : Onward tail next)
    (traces : Traces (.call "production") ahead asked (some (parts, rest)))
    (two : tally ahead = some 2) (leads : Leads rest [])
    (enough : ranks.length + brackets.length ≤ room) :
    Carries tail (room + 4) (.call "production") asked (ahead ++ '\n' :: tail)
      (some (parts, rest ++ '\n' :: tail)) := by
  obtain ⟨rfl, ⟨_, _, _, _, holds, split, same⟩ | ⟨_, _, none⟩⟩ := traces_call.mp traces
  · cases same
    have inside := (holds_iff mem_production).mp holds
    refine call_matched holds mem_production (by rw [split, List.append_assoc]) ?_
    obtain ⟨_, _, _, middle, _, head, single, rfl, rfl⟩ := traces_sequence_append_some inside
    obtain ⟨_, _, _, _, _, body, none, rfl, rfl⟩ := traces_sequence_cons_some.mp single
    obtain ⟨rfl, same⟩ := traces_sequence_nil.mp none
    cases same
    -- Up to the sign of the definition the text is inside of what the sign closes.
    have floor : AtLeast (some 2) ahead := by
      rintro least ⟨⟩
      exact ⟨2, two, le_rfl⟩
    have above := head.above (rfl : staysAbove Dialect.inside (some 2) _ = true) floor
    obtain ⟨first, traces, joins⟩ : Carries tail (room + 3) (.sequence opening) _
        (ahead ++ '\n' :: tail) _ :=
      of_kept head (by decide) (fun spot among => (above spot among).kept_of_inside)
        fun spot among => .inl (above spot among)
    have even : tally middle = some 0 := by
      have gains : gain (.sequence opening) = some 2 := rfl
      have closes := head.tally_eq gains
      rw [two] at closes
      obtain ⟨amount, here, same⟩ := Option.map_eq_some_iff.mp closes.symm
      obtain rfl : amount = 0 := by omega
      exact here
    obtain ⟨second, traces', joins'⟩ :=
      (alternation onward body even leads enough).cons (nil : Carries tail (room + 3) _ _ _ _)
    exact ⟨first ++ second, traces.append traces', joins.append joins'⟩
  · cases none

end Dialect

end Bnf

end ParametricGrammar
