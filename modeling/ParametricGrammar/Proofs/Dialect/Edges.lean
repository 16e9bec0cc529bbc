import ParametricGrammar.Proofs.Dialect.Nesting
import ParametricGrammar.Proofs.Dialect.Seals
/-!
# Lexemes at the edge of a text

Spaces, comments, names and code points are read up to a character that ends them, or up to the end
of the text. What a lexeme reads depends on the next characters behind it only, so a lexeme that
ends where a text is cut off ends there in the shorter text, too. -/

namespace ParametricGrammar

namespace Bnf

namespace Dialect

variable {name : String} {node body : Node} {chars ahead rest tail other inner : List Char}
  {asked : List Spot} {parts : List Part} {reading : Reading}

/-! ### What reads something -/

mutual

/-- Whether every match of an expression reads at least one character. -/
def moves : Node → Bool
  | .literal text => text.toList ≠ []
  | .chars _ => true
  | .reference name _ => name ∉ ["grammar", "s-ignorable"]
  | .sequence children => moveSome children
  | .first children => moveAll children
  | .repeated child minimum _ => minimum = .fixed 1 && moves child
  | _ => false

/-- Whether expressions one after the other read at least one character. -/
def moveSome : List Node → Bool
  | [] => false
  | node :: rest => moves node || moveSome rest

/-- Whether each of some expressions reads at least one character. -/
def moveAll : List Node → Bool
  | [] => true
  | node :: rest => moves node && moveAll rest

end

private theorem moves_of_mem (member : (name, body) ∈ rules)
    (other : name ∉ ["grammar", "s-ignorable"]) :
    moves body = true := by
  have holds := check_of_mem (fun name body =>
    name ∈ ["grammar", "s-ignorable"] || moves body) (by decide +kernel) member
  simpa [other] using holds

theorem Traces.length_lt_of_moves (traces : Traces node ahead asked (some (parts, rest)))
    (reads : moves node = true) : rest.length < ahead.length := by
  generalize read : some (parts, rest) = reading at traces
  induction traces generalizing parts rest with
  | literal spelled =>
      cases read
      have some : _ ≠ [] := of_decide_eq_true reads
      rw [spelled, List.length_append]
      have := List.length_pos_iff.mpr some
      omega
  | chars =>
      cases read
      simp
  | matched member _ inside induction =>
      cases read
      exact induction (moves_of_mem member (of_decide_eq_true reads)) rfl
  | cons head tail inductionHead inductionTail =>
      cases read
      obtain ⟨_, split⟩ := head.exists_chars
      obtain ⟨_, split'⟩ := tail.exists_chars
      have shorter := congrArg List.length split
      have shorter' := congrArg List.length split'
      rw [List.length_append] at shorter shorter'
      rcases Bool.or_eq_true_iff.mp reads with first | later
      · have := inductionHead first rfl
        omega
      · have := inductionTail later rfl
        omega
  | chosen _ induction => exact induction (Bool.and_eq_true_iff.mp reads).1 read
  | next _ _ _ induction => exact induction (Bool.and_eq_true_iff.mp reads).2 read
  | present _ induction => exact induction (Bool.and_eq_true_iff.mp reads).2 read
  | absent => cases (Bool.and_eq_true_iff.mp reads).1
  | exhausted =>
      split at read
      · rename_i zero
        subst zero
        cases (Bool.and_eq_true_iff.mp reads).1
      · cases read
  | idle _ induction => exact induction (Bool.and_eq_true_iff.mp reads).2 read
  | again head moves tail =>
      cases read
      have first := head.length_lt moves
      obtain ⟨_, split⟩ := tail.exists_chars
      have shorter := congrArg List.length split
      rw [List.length_append] at shorter
      omega
  | empty | ends | nil | notAhead => cases reads
  | _ => cases read

/-! ### Spaces and comments -/

/-- No space, no line break and no comment that is complete begins here. -/
structure Halts (ahead : List Char) : Prop where
  blank : ∀ char ∈ ahead.head?, isBlank char = false
  line : ahead.head? ≠ some '#'
  block : ¬ ∃ inner, "/*".toList ++ (inner ++ "*/".toList) <+: ahead

private theorem Halts.of_append (halts : Halts (ahead ++ tail)) : Halts ahead where
  blank char first := halts.blank char (by rw [List.head?_append, first]; rfl)
  line first := halts.line (by rw [List.head?_append, first]; rfl)
  block := fun ⟨inner, starts⟩ => halts.block ⟨inner, starts.trans (List.prefix_append _ _)⟩

private theorem halts_of_plain (plain : ∀ char ∈ ahead.head?, opensIgnorable char = false) :
    Halts ahead where
  blank char first := by
    have other := plain char first
    simp only [opensIgnorable, Bool.or_eq_false_iff] at other
    exact other.1.1
  line first := absurd (plain _ first) (by decide)
  block := by
    rintro ⟨inner, behind, rfl⟩
    exact absurd (plain '/' rfl) (by decide)

/-- Characters start like others, or there are none. -/
abbrev Starts (other rest : List Char) : Prop := ∀ char ∈ other.head?, char ∈ rest.head?

private theorem Starts.append (starts : Starts other rest) (chars : List Char) :
    Starts (chars ++ other) (chars ++ rest) := by
  cases chars with
  | nil => exact starts
  | cons char chars => exact fun _ first => first

private theorem ignored_of_comment (plain : ∀ char ∈ ahead.head?, isBlank char = false)
    (comment : Traces (.call "comment") ahead asked (some (parts, rest))) :
    ∃ asked parts, Traces ignored ahead asked (some (parts, rest)) := by
  have apart : ∀ char ∈ ahead.head?, isSpace char = false ∧ Piece.breaksLine char = false :=
    fun char first => Bool.or_eq_false_iff.mp (plain char first)
  obtain ⟨_, space⟩ :=
    ((@letter_space 0).refuses fun char first => (apart char first).1).exists_traces rfl
  obtain ⟨_, lineBreak⟩ :=
    ((@letter_break 0).refuses fun char first => (apart char first).2).exists_traces rfl
  exact ⟨_, _, .next space (.next lineBreak (.chosen comment))⟩

private theorem ignored_of_line (single : ∀ char ∈ chars, Piece.breaksLine char = false)
    (stops : ∀ char ∈ rest.head?, Piece.breaksLine char = true) :
    ∃ asked parts, Traces ignored ('#' :: chars ++ rest) asked (some (parts, rest)) := by
  obtain ⟨_, _, comment⟩ := (takes_comment single stops : Takes 2 _ _ _ _).exists_traces rfl
  exact ignored_of_comment (by simp; decide) comment

private theorem ignored_of_block
    (run : Traces (.zeroOrMore commentStep) (inner ++ ("*/".toList ++ rest)) asked
      (some (parts, "*/".toList ++ rest))) :
    ∃ asked parts, Traces ignored ("/*".toList ++ (inner ++ ("*/".toList ++ rest))) asked
      (some (parts, rest)) := by
  have row : Traces (.sequence [.literal "/*", .zeroOrMore commentStep, .literal "*/"])
      ("/*".toList ++ (inner ++ ("*/".toList ++ rest))) _ (some (_, rest)) :=
    .cons (.literal rfl) (.cons run (.cons (.literal rfl) .nil))
  have member : ("block-comment", .sequence
      [.literal "/*", .zeroOrMore commentStep, .literal "*/"]) ∈ rules := by
    simp [rules, commentStep]
  have split : "/*".toList ++ (inner ++ ("*/".toList ++ rest)) =
      ("/*".toList ++ (inner ++ "*/".toList)) ++ rest := by simp
  have refused :
      Refuses 1 (.call "line-comment") ("/*".toList ++ (inner ++ ("*/".toList ++ rest))) :=
    refuses_opening _ "#" '#' (by simp [rules]; rfl) rfl (by simp)
  obtain ⟨_, line⟩ := refused.exists_traces rfl
  have choice : Traces (.first [.call "line-comment", .call "block-comment"]) _ _ _ :=
    .next line (.chosen (.matched member split row))
  exact ignored_of_comment (by simp; decide) (.matched (by simp [rules]) split choice)

/-- A comment that is open is read up to the first sign that closes it, also where another text is
behind that. -/
theorem exists_run_of_open
    (run : Traces (.zeroOrMore commentStep) ahead asked (some (parts, rest))) :
    ∃ chars, ahead = chars ++ rest ∧ ∀ other, "*/".toList <+: rest →
      Traces (.zeroOrMore commentStep) (chars ++ ("*/".toList ++ other)) []
        (some ([], "*/".toList ++ other)) := by
  refine run.steps (fun ahead rest => ∃ chars, ahead = chars ++ rest ∧
    ∀ other, "*/".toList <+: rest →
      Traces (.zeroOrMore commentStep) (chars ++ ("*/".toList ++ other)) []
        (some ([], "*/".toList ++ other))) ?_ ?_ ?_
  · exact fun misses => ⟨[], rfl, fun other _ =>
      .exhausted (misses_commentStep (List.prefix_append _ _))⟩
  · intro ahead asked parts once
    obtain ⟨char, same, -⟩ := once.commentStep
    simp at same
  · rintro ahead asked parts middle rest once ⟨chars, rfl, later⟩
    obtain ⟨char, rfl, more⟩ := once.commentStep
    refine ⟨char :: chars, rfl, fun other closes => ?_⟩
    refine .again (traces_commentStep fun starts => more ?_) (by simp) (later other closes)
    obtain ⟨behind, rfl⟩ := closes
    have within : ∀ other,
        char :: (chars ++ "*/".toList) <+: char :: (chars ++ ("*/".toList ++ other)) :=
      fun other => ⟨other, by simp⟩
    exact (List.prefix_of_prefix_length_le starts (within other) (by simp)).trans (within behind)

private theorem exists_run_of_closed (inner rest : List Char) :
    ∃ chars behind, inner ++ ("*/".toList ++ rest) = chars ++ ("*/".toList ++ behind) ∧
      Traces (.zeroOrMore commentStep) (chars ++ ("*/".toList ++ behind)) []
        (some ([], "*/".toList ++ behind)) := by
  induction inner with
  | nil => exact ⟨[], rest, rfl, .exhausted (misses_commentStep (List.prefix_append _ _))⟩
  | cons char inner induction =>
      by_cases closes : "*/".toList <+: char :: inner ++ ("*/".toList ++ rest)
      · obtain ⟨behind, same⟩ := closes
        exact ⟨[], behind, same.symm, .exhausted (misses_commentStep (List.prefix_append _ _))⟩
      · obtain ⟨chars, behind, same, run⟩ := induction
        rw [List.cons_append, same] at closes ⊢
        exact ⟨char :: chars, behind, rfl, .again (traces_commentStep closes) (by simp) run⟩

private theorem exists_inside (member : (name, body) ∈ rules)
    (traces : Traces (.call name) ahead asked (some (parts, rest))) :
    ∃ asked parts, Traces body ahead asked (some (parts, rest)) := by
  obtain ⟨-, ⟨_, _, _, _, holds, -, same⟩ | ⟨_, _, none⟩⟩ := traces_call.mp traces
  · cases same
    exact ⟨_, _, (holds_iff member).mp holds⟩
  · cases none

/-- One thing that is ignored before some rest: a space or a line break, a comment up to the end of
its line, or a complete comment. -/
inductive Skipped : List Char → List Char → Prop where
  | blank {char : Char} {rest : List Char} (blank : isBlank char = true) : Skipped [char] rest
  | line {chars rest : List Char} (single : ∀ char ∈ chars, Piece.breaksLine char = false)
      (stops : ∀ char ∈ rest.head?, Piece.breaksLine char = true) : Skipped ('#' :: chars) rest
  | block {chars rest : List Char}
      (run : Traces (.zeroOrMore commentStep) (chars ++ ("*/".toList ++ rest)) []
        (some ([], "*/".toList ++ rest))) : Skipped ("/*".toList ++ (chars ++ "*/".toList)) rest

private theorem Traces.skipped (once : Traces ignored ahead asked (some (parts, rest))) :
    ∃ chars, ahead = chars ++ rest ∧ Skipped chars rest := by
  obtain ⟨_, ⟨⟩, space⟩ | ⟨_, _, -, later, -⟩ := traces_first_cons.mp once
  · obtain ⟨char, _, _, rfl, holds, same⟩ | ⟨-, none⟩ := reads_of_letter (@letter_space 0) rfl space
    · cases same
      exact ⟨[char], rfl, .blank (by simp [isBlank, holds])⟩
    · cases none
  obtain ⟨_, ⟨⟩, lineBreak⟩ | ⟨_, _, -, later, -⟩ := traces_first_cons.mp later
  · obtain ⟨char, _, _, rfl, holds, same⟩ | ⟨-, none⟩ :=
      reads_of_letter (@letter_break 0) rfl lineBreak
    · cases same
      exact ⟨[char], rfl, .blank (by simp [isBlank, holds])⟩
    · cases none
  obtain ⟨_, ⟨⟩, comment⟩ | ⟨_, _, -, none, -⟩ := traces_first_cons.mp later
  · obtain ⟨_, _, choice⟩ := exists_inside (by simp [rules]; rfl) comment
    obtain ⟨_, ⟨⟩, line⟩ | ⟨_, _, -, later, -⟩ := traces_first_cons.mp choice
    · obtain ⟨_, _, row⟩ := exists_inside (by simp [rules]; rfl) line
      obtain ⟨_, _, _, _, _, mark, single, -, -⟩ := traces_sequence_cons_some.mp row
      obtain ⟨-, -, rfl⟩ := traces_literal_some.mp mark
      obtain ⟨_, _, _, _, _, run, none, -, -⟩ := traces_sequence_cons_some.mp single
      obtain ⟨-, same⟩ := traces_sequence_nil.mp none
      cases same
      obtain ⟨chars, rfl, all, stops⟩ := exists_run (@letter_lineChar 0) rfl run
      exact ⟨'#' :: chars, rfl, .line (by simpa using all) (by simpa using stops)⟩
    · obtain ⟨_, ⟨⟩, block⟩ | ⟨_, _, -, none, -⟩ := traces_first_cons.mp later
      · obtain ⟨_, _, row⟩ := exists_inside (by simp [rules]; rfl) block
        obtain ⟨_, _, _, rfl, run⟩ := row.between
        obtain ⟨chars, rfl, closes⟩ := exists_run_of_open run
        exact ⟨"/*".toList ++ (chars ++ "*/".toList), by simp,
          .block (closes rest (List.prefix_append _ _))⟩
      · cases none
  · cases none

namespace Skipped

private theorem ne_nil (skipped : Skipped chars rest) : chars ≠ [] := by
  cases skipped <;> simp

/-- What is ignored is ignored likewise before what starts like the rest, and at the end. -/
theorem before (skipped : Skipped chars rest) (starts : Starts other rest) :
    Skipped chars other := by
  cases skipped with
  | blank blank => exact .blank blank
  | line single stops => exact .line single fun char first => stops char (starts char first)
  | block run =>
      obtain ⟨chars', same, closes⟩ := exists_run_of_open run
      obtain rfl := List.append_cancel_right same
      exact .block (closes other (List.prefix_append _ _))

private theorem exists_traces (skipped : Skipped chars rest) :
    ∃ asked parts, Traces ignored (chars ++ rest) asked (some (parts, rest)) := by
  cases skipped with
  | blank blank => exact (@takes_blank 0 rest _ blank).exists_traces rfl
  | line single stops => exact ignored_of_line single stops
  | block run => simpa using ignored_of_block run

private theorem not_halts (skipped : Skipped chars rest) : ¬ Halts (chars ++ rest) := by
  intro halts
  cases skipped with
  | blank blank =>
      rw [halts.blank _ rfl] at blank
      cases blank
  | line => exact halts.line rfl
  | block => exact halts.block ⟨_, List.prefix_append _ _⟩

end Skipped

theorem Halts.exists_misses (halts : Halts ahead) : ∃ asked, Traces ignored ahead asked none := by
  obtain ⟨asked, reading, traces⟩ : ∃ asked reading, Traces ignored ahead asked reading :=
    exists_traces_of_known rfl (by decide) ahead
  cases reading with
  | none => exact ⟨asked, traces⟩
  | some read =>
      obtain ⟨chars, rfl, skipped⟩ := traces.skipped
      exact absurd halts skipped.not_halts

/-- Nothing is ignored where no space, no line break and no complete comment begins. -/
theorem halts_of_misses (misses : Traces ignored ahead asked none) : Halts ahead := by
  have apart : ∀ {chars rest}, Skipped chars rest → ahead ≠ chars ++ rest := by
    rintro chars rest skipped rfl
    obtain ⟨_, _, once⟩ := skipped.exists_traces
    cases (misses.unique once).2
  refine ⟨fun char first => ?_, fun first => ?_, ?_⟩
  · by_contra blank
    obtain ⟨behind, rfl⟩ := eq_of_head? first
    exact apart (.blank (by simpa using blank)) rfl
  · obtain ⟨behind, rfl⟩ := eq_of_head? first
    refine apart (.line (fun char member => ?_) fun char first => ?_)
      (congrArg _ (List.takeWhile_append_dropWhile (p := (!Piece.breaksLine ·))).symm)
    · simpa using List.mem_takeWhile_imp member
    · have stops := List.head?_dropWhile_not (!Piece.breaksLine ·) behind
      simp_all
  · rintro ⟨inner, behind, rfl⟩
    obtain ⟨_, _, same, run⟩ := exists_run_of_closed inner behind
    refine apart (.block run) ?_
    rw [List.append_assoc, List.append_assoc, List.append_assoc, List.append_assoc, same]

theorem Leads.halts (leads : Leads ahead rest) : Halts rest := by
  obtain ⟨_, _, traces⟩ := leads
  refine traces.steps (fun _ rest => Halts rest) halts_of_misses ?_ fun _ halts => halts
  intro ahead asked parts once
  obtain ⟨chars, same, skipped⟩ := once.skipped
  exact absurd (List.append_left_eq_self.mp same.symm) skipped.ne_nil

/-- Spaces and comments are read likewise before what starts like the rest and begins none of them,
and at the end. -/
theorem Leads.before (leads : Leads ahead rest) :
    ∃ chars, ahead = chars ++ rest ∧
      ∀ other, Starts other rest → Halts other → Leads (chars ++ other) other := by
  obtain ⟨_, _, traces⟩ := leads
  refine traces.steps (fun ahead rest => ∃ chars, ahead = chars ++ rest ∧
    ∀ other, Starts other rest → Halts other → Leads (chars ++ other) other) ?_ ?_ ?_
  · refine fun misses => ⟨[], rfl, fun other _ halts => ?_⟩
    obtain ⟨_, misses⟩ := halts.exists_misses
    exact ⟨_, _, .exhausted misses⟩
  · intro ahead asked parts once
    obtain ⟨chars, same, skipped⟩ := once.skipped
    exact absurd (List.append_left_eq_self.mp same.symm) skipped.ne_nil
  · rintro ahead asked parts middle rest once ⟨more, rfl, later⟩
    obtain ⟨chars, rfl, skipped⟩ := once.skipped
    refine ⟨chars ++ more, (List.append_assoc ..).symm, fun other starts halts => ?_⟩
    obtain ⟨_, _, run⟩ := later other starts halts
    obtain ⟨_, _, first⟩ := (skipped.before (starts.append more)).exists_traces
    rw [List.append_assoc]
    refine ⟨_, _, .again first ?_ run⟩
    simpa using skipped.ne_nil

/-- Where a text is cut off behind spaces and comments, these are read up to the same place. -/
theorem Leads.cut (leads : Leads (ahead ++ tail) (rest ++ tail)) : Leads ahead rest := by
  obtain ⟨chars, split, before⟩ := leads.before
  rw [← List.append_assoc] at split
  obtain rfl := List.append_cancel_right split
  refine before rest (fun char first => ?_) leads.halts.of_append
  rw [List.head?_append, first]
  rfl

/-- Before a sign that nothing ignored begins with, spaces and comments do not notice the end. -/
theorem Leads.append {char : Char} (leads : Leads ahead (char :: rest))
    (plain : opensIgnorable char = false) : Leads (ahead ++ tail) (char :: rest ++ tail) := by
  obtain ⟨chars, rfl, before⟩ := leads.before
  rw [List.append_assoc]
  exact before (char :: rest ++ tail) (fun _ first => first) (halts_of_plain (by simpa using plain))

/-! ### Names -/

private theorem exists_nameSteps (ahead : List Char) :
    ∃ chars rest, ahead = chars ++ rest ∧ continuesName chars = true ∧ endsName rest = true := by
  fun_induction continuesName ahead with
  | case1 => exact ⟨[], [], rfl, rfl, rfl⟩
  | case2 char =>
      by_cases alnum : char.isAlphanum = true
      · exact ⟨[char], [], rfl, alnum, rfl⟩
      · exact ⟨[], [char], rfl, rfl, by simpa [endsName] using alnum⟩
  | case3 char next more alnum induction =>
      obtain ⟨chars, rest, split, continues, ends⟩ := induction
      refine ⟨char :: chars, rest, by rw [split, List.cons_append], ?_, ends⟩
      cases chars with
      | nil => exact alnum
      | cons other chars => simpa [continuesName, alnum] using continues
  | case4 char next more other induction =>
      by_cases joins : (isJoiner char && next.isAlphanum) = true
      · obtain ⟨chars, rest, rfl, continues, ends⟩ := induction
        exact ⟨char :: next :: chars, rest, rfl,
          by simp [continuesName, other, joins, continues], ends⟩
      · have apart : (isJoiner char && next.isAlphanum) = false := by simpa using joins
        exact ⟨[], char :: next :: more, rfl, rfl, by simp [endsName, other, apart]⟩

/-- A name is read up to what does not continue it. -/
theorem traces_name (traces : Traces (.call "production-name") ahead asked reading) :
    (∃ chars rest parts, ahead = chars ++ rest ∧ isName chars = true ∧ endsName rest = true ∧
        reading = some (parts, rest)) ∨
      ((∀ char ∈ ahead.head?, char.isAlpha = false) ∧ reading = none) := by
  by_cases opens : ∀ char ∈ ahead.head?, char.isAlpha = false
  · exact .inr ⟨opens, (refuses_name opens : Refuses 2 _ _).reads rfl traces⟩
  · cases ahead with
    | nil => simp at opens
    | cons char more =>
        obtain ⟨chars, rest, rfl, continues, ends⟩ := exists_nameSteps more
        have valid : isName (char :: chars) = true := by simpa [isName, continues] using opens
        obtain ⟨parts, rfl⟩ := (takes_name valid ends : Takes 3 _ _ _ _).reads rfl traces
        exact .inl ⟨char :: chars, rest, parts, rfl, valid, ends, rfl⟩

private theorem endsName_of_append (ends : endsName (rest ++ tail) = true) :
    endsName rest = true := by
  rcases rest with _ | ⟨char, _ | ⟨next, rest⟩⟩
  · rfl
  · cases tail <;> simp_all [endsName]
  · exact ends

theorem endsName_append (ends : endsName rest = true) (more : 2 ≤ rest.length) :
    endsName (rest ++ tail) = true := by
  rcases rest with _ | ⟨char, _ | ⟨next, rest⟩⟩
  · simp at more
  · simp at more
  · exact ends

/-- Where a text is cut off behind a name, the name is read up to the same place. -/
theorem name_cut
    (traces : Traces (.call "production-name") (ahead ++ tail) asked (some (parts, rest ++ tail))) :
    ∃ asked parts, Traces (.call "production-name") ahead asked (some (parts, rest)) := by
  obtain ⟨chars, _, _, split, valid, ends, same⟩ | ⟨-, none⟩ := traces_name traces
  · cases same
    rw [← List.append_assoc] at split
    obtain rfl := List.append_cancel_right split
    exact (takes_name valid (endsName_of_append ends) : Takes 3 _ _ _ _).exists_traces rfl
  · cases none

/-! ### Code points -/

/-- Where a text is cut off behind a code point, it is read up to the same place. -/
theorem hexChar_cut
    (traces : Traces (.call "hex-char") (ahead ++ tail) asked (some (parts, rest ++ tail))) :
    ∃ asked parts, Traces (.call "hex-char") ahead asked (some (parts, rest)) := by
  obtain ⟨_, _, row⟩ := exists_inside (by simp [rules]; rfl) traces
  obtain ⟨_, _, _, inner, _, mark, row', -, -⟩ := traces_sequence_cons_some.mp row
  obtain ⟨-, -, split⟩ := traces_literal_some.mp mark
  obtain ⟨_, _, _, middle, _, run, guard, -, -⟩ := traces_sequence_cons_some.mp row'
  obtain ⟨_, _, _, _, _, guard, none, -, -⟩ := traces_sequence_cons_some.mp guard
  obtain ⟨-, same⟩ := traces_sequence_nil.mp none
  cases same
  obtain ⟨misses, same⟩ | ⟨_, -, none⟩ := traces_notAhead.mp guard
  · cases same
    have shorter := run.length_lt_of_moves rfl
    obtain ⟨digits, rfl, all, -⟩ := exists_run (@letter_hexDigit 0) rfl run
    have some : digits ≠ [] := by
      rintro rfl
      simp at shorter
    rw [← List.append_assoc, ← List.append_assoc] at split
    obtain rfl := List.append_cancel_right split
    obtain ⟨_, _, _, -, -, none⟩ | ⟨others, -⟩ := reads_of_letter (@letter_alnum 0) rfl misses
    · cases none
    · refine (takes_hexChar some all fun char first => others char ?_ :
        Takes 3 _ _ _ _).exists_traces rfl
      rw [List.head?_append, first]
      rfl
  · cases none

/-- Where a name is read that is not taken for a code point, it is none in the text that is cut off
either. -/
theorem hexChar_missed (misses : Traces (.call "hex-char") (chars ++ (rest ++ tail)) asked none)
    (valid : isName chars = true) (ends : endsName (rest ++ tail) = true) :
    ∃ asked, Traces (.call "hex-char") (chars ++ rest) asked none := by
  have other : isHexLike chars = false := by
    by_contra like
    obtain ⟨_, _, _, same, takes⟩ :=
      exists_takes_hexChar (by simpa using like) (head_of_endsName ends)
    rw [same] at misses
    obtain ⟨_, none⟩ := takes.reads rfl misses
    cases none
  exact (refuses_hexChar valid other (head_of_endsName (endsName_of_append ends)) :
    Refuses 3 _ _).exists_traces rfl

end Dialect

end Bnf

end ParametricGrammar
