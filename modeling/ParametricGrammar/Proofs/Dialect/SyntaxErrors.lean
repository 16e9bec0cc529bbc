import ParametricGrammar.Proofs.Dialect.Concatenations
import ParametricGrammar.Proofs.Dialect.Nesting
/-!
# Where texts cannot be read

A text that is not read as a whole is read again clause by clause, and the error is located behind
the last clause, the spaces and the comments that follow it. Both runs read the same: the second one
only leaves out what comes behind.
-/

namespace ParametricGrammar

namespace Bnf

namespace Dialect

variable {node : Node} {source text : List Char} {asked : List Spot} {reading : Reading}

/-! ### The search for the first clause that cannot be read -/

/-- What is left behind what is read, or all that lies ahead if nothing is read. -/
def Reading.left (ahead : List Char) (reading : Reading) : List Char :=
  (reading.map Prod.snd).getD ahead

private theorem exists_place_of_endOf {limit offset stop : ℕ} {memory : Memory} {known : Set Spot}
    {cursor : Cursor} {session : Session} (traces : Traces node cursor.rest asked reading)
    (traceable : node.isTraceable = true) (refuted : Refuted known)
    (remembers : Remembers source memory known)
    (located : Cursor.at? source offset = some cursor)
    (ends : endOf ⟨remembering limit, source, memory⟩ offset node = .ok (stop, session)) :
    ∃ (place : Cursor) (after : Set Spot) (memory' : Memory), place.whole = source ∧
      place.offset = stop ∧ place.rest = reading.left cursor.rest ∧
      session = ⟨remembering limit, source, memory'⟩ ∧
      Refuted after ∧ Remembers source memory' after := by
  obtain ⟨whole, offsets⟩ := Cursor.at?_eq_some_iff.mp located
  have goes := traces.goes_evaluate traceable whole refuted remembers limit
  simp only [endOf, Session.parse, Setting.parse, limit_remembering, located] at ends
  cases reply : node.evaluate outside ((remembering limit).invoke limit) .empty cursor memory with
  | mk outcome after =>
  rw [reply] at goes ends
  rcases goes with ⟨known', explores, remembers', shown⟩ | ⟨-, exceeded⟩
  · cases shown with
    | missed =>
        cases ends
        exact ⟨cursor, known', after, whole, offsets, rfl, rfl, explores.refuted refuted,
          remembers'⟩
    | matched whole' _ left =>
        cases ends
        exact ⟨_, known', after, whole', rfl, left.symm, rfl, explores.refuted refuted, remembers'⟩
  · obtain rfl : outcome = _ := exceeded
    cases ends

/-- The clauses of a text are searched up to where no other one follows. -/
theorem exists_traces_of_locateError {start : ℕ} (located : locateError grammar text = .ok start) :
    ∃ (asked : List Spot) (parts : List Part) (middle : List Char) (place : Cursor),
      Traces (.zeroOrMore (.call "production")) text asked (some (parts, middle)) ∧
        Leads middle place.rest ∧ place.whole = text ∧ place.offset = start := by
  obtain ⟨⟨clauses, session⟩, ends, located⟩ := bind_eq_ok_iff.mp located
  obtain ⟨⟨stop, session'⟩, ends', located⟩ := bind_eq_ok_iff.mp located
  cases located
  obtain ⟨asked, reading, traces⟩ := exists_traces_repeated
    (fun rest (_ : rest <:+ text) => exists_traces_call mem_production rest) 0
  obtain ⟨⟨parts, middle⟩, rfl⟩ := Option.ne_none_iff_exists'.mp traces.zeroOrMore_ne_none
  have begins : Cursor.at? text 0 = some (.start text) :=
    Cursor.at?_eq_some_iff.mpr ⟨Cursor.whole_start text, rfl⟩
  obtain ⟨place, after, memory, whole, offset, left, rfl, refuted, remembers⟩ :=
    exists_place_of_endOf traces rfl refuted_empty (remembers_fresh text) begins ends
  obtain rfl : place.rest = middle := left
  obtain ⟨_, reading, gap⟩ := exists_traces_call mem_ignorable place.rest
  obtain ⟨rfl, _, _, parts', rest, -, -, rfl⟩ := traces_ignorable.mp gap
  obtain ⟨last, -, -, whole', offset', left', -, -, -⟩ :=
    exists_place_of_endOf gap rfl refuted remembers
      (Cursor.at?_eq_some_iff.mpr ⟨whole, offset⟩) ends'
  obtain rfl : last.rest = rest := left'
  exact ⟨asked, parts, place.rest, last, traces, .of_call gap, whole', offset'⟩

/-- A text that is not read ends in an error of the run, or in a syntax error if it is not
matched. -/
theorem run_or_syntax_of_treeOf {error : CompileError}
    (fails : treeOf grammar text = .error error) :
    (∃ cause, error = .run cause) ∨
      ∃ start cause, error = .invalidSyntax ⟨start, start⟩ ∧
        locateError grammar text = .ok start ∧
        ((remembering 1024).parseAll "grammar" text).1 = .error cause ∧
        cause ≠ .recursionLimitExceeded 1024 := by
  have search : (locateError grammar text >>= fun start =>
        (throw (.invalidSyntax ⟨start, start⟩) : Except CompileError Tree)) = .error error →
      (∃ cause, error = .run cause) ∨
        ∃ start, error = .invalidSyntax ⟨start, start⟩ ∧ locateError grammar text = .ok start := by
    intro fails
    rcases bind_eq_error_iff.mp fails with ends | ⟨start, located, fails⟩
    · exact .inl ⟨_, (eq_of_locateError ends).1⟩
    · cases fails
      exact .inr ⟨start, rfl, located⟩
  unfold treeOf at fails
  split at fails
  · cases fails
  · exact (search fails).imp_right fun ⟨start, same, located⟩ =>
      ⟨start, _, same, located, ‹_›, by simp⟩
  · exact (search fails).imp_right fun ⟨start, same, located⟩ =>
      ⟨start, _, same, located, ‹_›, by simp⟩
  · cases fails
    exact .inl ⟨_, rfl⟩

/-- What is matched without a memory ends at the same place in every session. -/
theorem exists_endOf_of_uncached {memory : Memory} {offset stop : ℕ}
    (sound : memory.Sound grammar text)
    (uncached : (endOf ⟨⟨grammar, false, 1024⟩, text, .fresh⟩ offset node).toOption.map Prod.fst =
      some stop) :
    ∃ after : Memory, after.Sound grammar text ∧
      endOf ⟨remembering 1024, text, memory⟩ offset node =
        .ok (stop, ⟨remembering 1024, text, after⟩) := by
  have stays : ((remembering 1024).parse text offset .empty node memory).2.Sound grammar text := by
    refine (Setting.parse_sound ?_).1
    exact sound
  refine ⟨_, stays, ?_⟩
  have same {outcome : Outcome}
      (alone : (Setting.parse ⟨grammar, false, 1024⟩ text offset .empty node .fresh).1 = outcome)
      (within : outcome ≠ .failed (.recursionLimitExceeded 1024)) :
      ((remembering 1024).parse text offset .empty node memory).1 = outcome :=
    Setting.parse_eq_of_uncached sound true alone within
  simp only [endOf, Session.parse] at uncached ⊢
  cases alone : (Setting.parse ⟨grammar, false, 1024⟩ text offset .empty node .fresh).1 with
  | matched nodes last =>
      rw [alone] at uncached
      cases uncached
      rw [same alone (by simp)]
  | unmatched =>
      rw [alone] at uncached
      cases uncached
      rw [same alone (by simp)]
  | failed error =>
      rw [alone] at uncached
      cases uncached

/-- A text is not read, and its error is located, as it is without a memory. -/
theorem treeOf_of_uncached {start : ℕ} (stop : ℕ)
    (whole : (Setting.parseAll ⟨grammar, false, 1024⟩ "grammar" text).1.map (fun _ => ()) =
      .error (.noMatch "grammar"))
    (clauses : (endOf ⟨⟨grammar, false, 1024⟩, text, .fresh⟩ 0
      (.zeroOrMore (.call "production"))).toOption.map Prod.fst = some stop)
    (blanks : (endOf ⟨⟨grammar, false, 1024⟩, text, .fresh⟩ stop
      (.call "s-ignorable")).toOption.map Prod.fst = some start) :
    treeOf grammar text = .error (.invalidSyntax ⟨start, start⟩) := by
  obtain ⟨memory, sound, ends⟩ := exists_endOf_of_uncached Memory.sound_fresh clauses
  obtain ⟨_, -, ends'⟩ := exists_endOf_of_uncached sound blanks
  have located : locateError grammar text = .ok start :=
    bind_eq_ok_iff.mpr ⟨_, ends, bind_eq_ok_iff.mpr ⟨_, ends', rfl⟩⟩
  have unread : (Setting.parseAll ⟨grammar, false, 1024⟩ "grammar" text).1 =
      .error (.noMatch "grammar") := by
    cases reply : (Setting.parseAll ⟨grammar, false, 1024⟩ "grammar" text).1 with
    | ok tree =>
        rw [reply] at whole
        cases whole
    | error error =>
        rw [reply] at whole
        cases whole
        rfl
  rw [treeOf, setting, Setting.parseAll_eq_of_uncached true unread (by simp), located]
  rfl

/-- A syntax error is located where a text goes on behind its clauses, and the run over the whole
text has read these clauses, too. -/
theorem exists_traces_of_invalidSyntax {span : Span}
    (fails : treeOf grammar text = .error (.invalidSyntax span)) :
    ∃ (asked : List Spot) (parts : List Part) (middle : List Char) (place : Cursor)
      (known : Set Spot), place.whole = text ∧ span = ⟨place.offset, place.offset⟩ ∧
      place.rest ≠ [] ∧ Leads middle place.rest ∧
      Traces (.zeroOrMore (.call "production")) text asked (some (parts, middle)) ∧
      Explores 1023 ∅ asked known := by
  obtain ⟨_, other⟩ | ⟨start, cause, same, located, parsed, apart⟩ := run_or_syntax_of_treeOf fails
  · cases other
  cases same
  obtain ⟨asked, parts, middle, place, clauses, leads, whole, offset⟩ :=
    exists_traces_of_locateError located
  obtain ⟨chars, gapParts, gap⟩ := leads.traces
  obtain ⟨asked', reading, traces⟩ := exists_traces_call mem_wholeText text
  obtain ⟨rfl, -⟩ := traces_call.mp traces
  obtain ⟨known, explores⟩ : ∃ known, Explores 1024 ∅ [⟨"grammar", text⟩] known := by
    rcases goes_wholeRun 1024 traces with ⟨known, explores, -, -⟩ | ⟨-, exceeded⟩
    · exact ⟨known, explores⟩
    · unfold wholeRun at exceeded
      simp only [Setting.parseAll, limit_remembering, exceeded, Except.error.injEq] at parsed
      exact absurd parsed.symm apart
  have more : place.rest ≠ [] := by
    intro none
    rw [none] at gap
    obtain ⟨_, reads, -⟩ := traces_wholeText clauses gap
    obtain ⟨tree, parsed', -⟩ := exists_parseAll_of_explores reads explores
    rw [parsed'] at parsed
    cases parsed
  have broken : Traces wholeText text (asked ++ ([⟨"s-ignorable", middle⟩] ++ [])) none :=
    .broken clauses (.broken gap (.stop (.goesOn more)))
  obtain ⟨inner, inside⟩ := explores_wholeText broken explores
  obtain ⟨known', first, -⟩ := explores_append.mp inside
  exact ⟨asked, parts, middle, place, known', whole, by rw [offset], more, leads, clauses, first⟩

/-! ### Places of errors -/

private theorem span_within_of_invalidSyntax {span : Span}
    (fails : treeOf grammar text = .error (.invalidSyntax span)) : span.Within text := by
  obtain ⟨_, _, _, place, _, rfl, rfl, -⟩ := exists_traces_of_invalidSyntax fails
  exact ⟨le_rfl, place.offset_le_byteLength, place.isBoundary, place.isBoundary⟩

/-- Errors point at what they are about. Every span lies in the text, with its ends between
characters, and an error other than one of the run or the syntax quotes what its span covers in the
tree of the text. -/
theorem compile_error_points {text : String} {error : CompileError}
    (fails : compile text = .error error) :
    (∀ span, error.span? = some span → span.Within text.toList) ∧
      ((∃ cause, error = .run cause) ∨ (∃ span, error = .invalidSyntax span) ∨
        ∃ root, treeOf grammar text.toList = .ok root ∧ error.Points text.toList root) := by
  rcases bind_eq_error_iff.mp fails with reads | ⟨root, reads, translates⟩
  · obtain ⟨cause, rfl⟩ | ⟨start, _, rfl, -⟩ := run_or_syntax_of_treeOf reads
    · exact ⟨nofun, .inl ⟨cause, rfl⟩⟩
    · refine ⟨fun span located => ?_, .inr (.inl ⟨_, rfl⟩)⟩
      cases located
      exact span_within_of_invalidSyntax reads
  · have points := locates_grammarOf (sound_of_treeOf reads)
    rw [translates] at points
    refine ⟨fun span located => ?_, .inr (.inr ⟨root, reads, points⟩)⟩
    exact CompileError.Points.within points
      (fun _ _ clause => (sound_of_treeOf reads).within_of_hasClause clause) located

/-- A text with two clauses for the same literals. -/
def twiceText : String := "b ::= 'x'\n/* again */ [2] b ::= 'y'\n"

/-- The second clause is the error, from its section number on. -/
theorem compile_error_points_twice :
    compile twiceText = .error (.duplicateClause "b" .empty ⟨22, 35⟩) ∧
      (⟨22, 35⟩ : Span).Within twiceText.toList ∧
      ∃ root, treeOf grammar twiceText.toList = .ok root ∧
        root.HasClause twiceText.toList "b" ⟨22, 35⟩ := by
  have fails : compile twiceText = .error (.duplicateClause "b" .empty ⟨22, 35⟩) :=
    compile_of_uncached (by decide +kernel)
  obtain ⟨within, ⟨_, other⟩ | ⟨_, other⟩ | ⟨root, reads, points⟩⟩ := compile_error_points fails
  · cases other
  · cases other
  · exact ⟨fails, within _ rfl, root, reads, points⟩

end Dialect

end Bnf

end ParametricGrammar
