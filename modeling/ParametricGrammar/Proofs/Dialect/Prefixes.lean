import ParametricGrammar.Proofs.Dialect.CutPhrases
import ParametricGrammar.Proofs.Dialect.SyntaxErrors
/-!
# Texts up to a syntax error

A syntax error is located behind a run of clauses and the spaces and comments that follow them. The
clauses end at the same places in the text that is cut off there, so this text is read as a whole.
-/

namespace ParametricGrammar

namespace Bnf

namespace Dialect

variable {ahead middle rest last tail : List Char} {room : ℕ} {asked : List Spot}
  {parts : List Part}

/-- Where no number stands in a bracket, a section number is missed before the tail. -/
theorem sealed_sectionNumber (even : tally ahead = some 0) (more : ahead ≠ [])
    (number : ahead.head? = some '[' →
      ∀ char ∈ ahead.tail.head?, (char.isDigit || char = '-') = false) :
    (⟨"section-number", ahead⟩ : Spot).Sealed tail := by
  refine sealed_of_appends more fun member traces => ?_
  obtain rfl := body_unique member (by simp [rules]; rfl)
  refine .of_sequence traces (appends_char rfl more) ?_
  intro before parts inner asked reading mark row
  obtain ⟨-, -, rfl⟩ := traces_literal_some.mp mark
  have floor : AtLeast (some 1) inner := by
    have opens : tally ("[".toList ++ inner) = (tally inner).map (-1 + ·) := tally_append rfl
    rw [even] at opens
    obtain ⟨amount, here, same⟩ := Option.map_eq_some_iff.mp opens.symm
    rintro least ⟨⟩
    exact ⟨amount, here, by omega⟩
  obtain ⟨_, misses⟩ := (refuses_decimal (number rfl) : Refuses 2 _ inner).exists_traces rfl
  obtain ⟨head, rfl⟩ | ⟨_, _, _, _, _, head, -⟩ := traces_sequence_cons.mp row
  · exact (head.appends (by decide : staysWithin false (some 1) _ = true) floor nofun).stop
  · cases (head.unique misses).2

namespace Cuts

/-! ### Rows of parts -/

/-- A row stops where the text is cut off, and at the sign of the next alternative. -/
theorem stops_row (traces : Traces continuation (ahead ++ tail) asked none)
    (even : tally ahead = some 0) (leads : Leads (ahead ++ tail) (last ++ tail))
    (ends : last = [] ∨ last.head? = some '|') (enough : ranks.length ≤ room) :
    Cuts tail (room + 4) continuation asked ahead none := by
  have least : 8 ≤ ranks.length := by decide
  have enough' : ranks.length ≤ room + 4 := by omega
  rcases ends with rfl | bar
  · have head : Refuses 4 (.call "production-head") [] := refuses_head (by simp) (by simp)
    have part : Refuses 7 (.call "difference") [] := refuses_difference (by simp)
    obtain ⟨_, misses⟩ := head.exists_traces rfl
    obtain ⟨_, misses'⟩ := part.exists_traces rfl
    obtain ⟨rfl, -⟩ := traces_call.mp misses
    obtain ⟨rfl, -⟩ := traces_call.mp misses'
    refine stops_at_end traces leads even (.broken (.notAhead misses) (.stop misses')) ?_ enough'
    simp only [List.forall_mem_append, List.mem_singleton, forall_eq]
    exact ⟨head.explorable.mono (by omega), part.explorable.mono (by omega)⟩
  · obtain ⟨more, rfl⟩ := eq_of_head? bar
    have letters : ∀ char ∈ ('|' :: more).head?, opensAtom char = false := by simp; decide
    obtain ⟨_, _, gap⟩ := leads.traces
    have even' := gap.even_cut rfl even
    obtain ⟨none, -⟩ | ⟨_, _, _, _, _, gap', row, rfl, none⟩ := traces_sequence_cons.mp traces
    · cases (none.unique gap).2
    obtain rfl := Reading.prepend_eq_none_iff.mp none.symm
    obtain ⟨rfl, same⟩ := gap'.unique gap
    cases same
    refine (ignorable gap even enough').cons ?_
    have sealed : (⟨"section-number", '|' :: more⟩ : Spot).Sealed tail :=
      sealed_sectionNumber even' (by simp) (by simp)
    obtain ⟨guard, -⟩ | ⟨_, _, _, _, _, guard, single, rfl, none⟩ := traces_sequence_cons.mp row
    · obtain ⟨-, none⟩ | ⟨_, found, -⟩ := traces_notAhead.mp guard
      · cases none
      · have refuses : Refuses 4 (.call "production-head") ('|' :: (more ++ tail)) :=
          refuses_head (by simp) (by simp)
        cases refuses.reads rfl found
    obtain rfl := Reading.prepend_eq_none_iff.mp none.symm
    obtain ⟨misses, same⟩ | ⟨_, _, none⟩ := traces_notAhead.mp guard
    · cases same
      refine (notAhead (head misses sealed even' (by omega))).cons ?_
      obtain ⟨part, -⟩ | ⟨_, _, _, _, _, part, -⟩ := traces_sequence_cons.mp single
      · exact stop (missed_difference part letters even' (by simp) enough)
      · cases (refuses_difference letters : Refuses 7 _ ('|' :: (more ++ tail))).reads rfl part
    · cases none

/-- Behind a part of a row no other operand is excluded before the tail. -/
theorem exists_leads_of_continuations
    (traces : Traces (.zeroOrMore continuation) (ahead ++ tail) asked
      (some (parts, rest ++ tail)))
    (leads : Leads (rest ++ tail) (last ++ tail)) (ends : last = [] ∨ last.head? = some '|') :
    ∃ behind, Leads (ahead ++ tail) (behind ++ tail) ∧ behind.head? ≠ some '-' := by
  obtain ⟨behind, gap, rfl | ⟨_, _, _, operand, more, rfl⟩⟩ := exists_leads_of_parts traces leads
  · refine ⟨last, gap, ?_⟩
    rcases ends with rfl | bar
    · simp
    · simp [bar]
  · rw [← List.append_assoc] at operand
    obtain ⟨behind, rfl, -⟩ := exists_cut operand
    obtain ⟨char, more, rfl⟩ := List.exists_cons_of_ne_nil (ne_nil_of_moves operand rfl)
    obtain ⟨_, _, same, opens⟩ := opens_of_quantified operand
    cases same
    refine ⟨_, gap, ?_⟩
    rintro ⟨rfl⟩
    exact absurd opens (by decide)

private theorem continuations
    (traces : Traces (.zeroOrMore continuation) (ahead ++ tail) asked
      (some (parts, rest ++ tail)))
    (even : tally ahead = some 0) (leads : Leads (rest ++ tail) (last ++ tail))
    (ends : last = [] ∨ last.head? = some '|') (enough : ranks.length ≤ room) :
    Cuts tail (room + 4) (.zeroOrMore continuation) asked ahead (some rest) := by
  have enough' : ranks.length ≤ room + 3 := enough.trans (Nat.le_add_right _ _)
  refine repeats traces even rfl rfl
    (fun misses even => stops_row misses even leads ends enough) ?_
  intro ahead before behind parts more middle once later even
  obtain ⟨_, _, _, _, _, _, gap, misses, part, rfl, rfl⟩ := traces_continuation_some once
  obtain ⟨last', leads', clear⟩ := exists_leads_of_continuations later leads ends
  obtain ⟨start, rfl, -⟩ := exists_cut part
  obtain ⟨_, _, _, operand, -⟩ := exists_quantified part
  have even' := gap.even_cut rfl even
  have more := ne_nil_of_moves part rfl
  have sealed : (⟨"section-number", start⟩ : Spot).Sealed tail := by
    refine sealed_sectionNumber even' more fun bracket char first => ?_
    refine number_of_quantified operand (by rw [List.head?_append, bracket]; rfl) char ?_
    rw [List.tail_append_of_ne_nil more, List.head?_append, first]
    rfl
  exact (ignorable gap even (enough'.trans (Nat.le_succ _))).cons
    ((notAhead (head misses sealed even' enough')).cons
      ((difference part even' leads' clear enough).cons nil))

/-- A row ends at the same place where the text is cut off and before another alternative. -/
theorem sequence
    (traces : Traces (.call "sequence") (ahead ++ tail) asked (some (parts, rest ++ tail)))
    (even : tally ahead = some 0) (leads : Leads (rest ++ tail) (last ++ tail))
    (ends : last = [] ∨ last.head? = some '|') (enough : ranks.length ≤ room) :
    Cuts tail (room + 5) (.call "sequence") asked ahead (some rest) := by
  have member : ("sequence", .sequence [.call "difference", .zeroOrMore continuation]) ∈ rules := by
    simp [rules, continuation]
  refine of_body member traces fun inside => ?_
  obtain ⟨_, _, _, _, _, first, others, rfl⟩ := exists_pair inside
  obtain ⟨last', leads', clear⟩ := exists_leads_of_continuations others leads ends
  exact (difference first even leads' clear enough).cons
    ((continuations others (first.even_cut rfl even) leads ends enough).cons nil)

/-! ### Bodies -/

/-- Behind a row comes the cut, or the sign of the next alternative. -/
theorem exists_leads_of_alternatives
    (traces : Traces (.zeroOrMore alternative) (ahead ++ tail) asked (some (parts, rest ++ tail)))
    (leads : Leads (rest ++ tail) tail) :
    ∃ behind, Leads (ahead ++ tail) (behind ++ tail) ∧
      (behind = [] ∨ behind.head? = some '|') := by
  obtain ⟨-, same⟩ | ⟨_, -, same⟩ | ⟨_, _, _, _, _, _, once, -, later, -, same⟩ :=
    traces_zeroOrMore.mp traces
  · simp only [Option.some.injEq, Prod.mk.injEq, List.append_cancel_right_eq] at same
    exact ⟨[], same.2 ▸ leads, .inl rfl⟩
  · simp only [Option.some.injEq, Prod.mk.injEq, List.append_cancel_right_eq] at same
    exact ⟨[], same.2 ▸ leads, .inl rfl⟩
  · cases same
    obtain ⟨_, _, _, _, _, _, _, _, gap, gap', row, -⟩ := traces_signed_some once
    obtain ⟨_, rfl, -⟩ := exists_cut later
    obtain ⟨_, rfl, -⟩ := exists_cut row
    obtain ⟨_, rfl, -⟩ := exists_cut gap'
    exact ⟨'|' :: _, .of_call gap, .inr rfl⟩

private theorem alternatives
    (traces : Traces (.zeroOrMore alternative) (ahead ++ tail) asked (some (parts, rest ++ tail)))
    (even : tally ahead = some 0) (leads : Leads (rest ++ tail) tail)
    (enough : ranks.length ≤ room) :
    Cuts tail (room + 5) (.zeroOrMore alternative) asked ahead (some rest) := by
  have enough' : ranks.length ≤ room + 5 := enough.trans (Nat.le_add_right _ _)
  have differs : ¬ "|".toList <+: [] := by decide
  have ending : Leads (rest ++ tail) ([] ++ tail) := leads
  refine repeats traces even rfl rfl (fun misses even =>
    stops_at_sign misses ending rfl differs even enough') fun once later even => ?_
  obtain ⟨last, leads', ends⟩ := exists_leads_of_alternatives later leads
  exact behind_sign once rfl even enough' fun row even => sequence row even leads' ends enough

/-- A body before the cut is read up to the same place. -/
theorem alternation
    (traces : Traces (.call "alternation") (ahead ++ tail) asked (some (parts, rest ++ tail)))
    (even : tally ahead = some 0) (leads : Leads (rest ++ tail) tail)
    (enough : ranks.length ≤ room) :
    Cuts tail (room + 6) (.call "alternation") asked ahead (some rest) := by
  have member : ("alternation", .sequence
      [.call "s-ignorable", .call "sequence", .zeroOrMore alternative]) ∈ rules := by
    simp [rules, alternative]
  refine of_body member traces fun inside => ?_
  obtain ⟨_, _, _, _, _, gap, rows, rfl, rfl⟩ := traces_sequence_cons_some.mp inside
  obtain ⟨_, _, _, _, _, first, row, rfl, rfl⟩ := traces_sequence_cons_some.mp rows
  obtain ⟨_, _, _, _, _, others, none, rfl, rfl⟩ := traces_sequence_cons_some.mp row
  obtain ⟨rfl, same⟩ := traces_sequence_nil.mp none
  cases same
  obtain ⟨_, rfl, -⟩ := exists_cut others
  obtain ⟨_, rfl, -⟩ := exists_cut first
  obtain ⟨last, leads', ends⟩ := exists_leads_of_alternatives others leads
  have even' := gap.even_cut rfl even
  exact (ignorable gap even (enough.trans (Nat.le_add_right _ _))).cons
    ((sequence first even' leads' ends enough).cons
      ((alternatives others (first.even_cut rfl even') leads enough).cons nil))

/-! ### Clauses -/

/-- The last clause before the cut is read up to the same place. -/
theorem production
    (traces : Traces (.call "production") (ahead ++ tail) asked (some (parts, rest ++ tail)))
    (two : tally ahead = some 2) (leads : Leads (rest ++ tail) tail)
    (enough : ranks.length ≤ room) :
    Cuts tail (room + 7) (.call "production") asked ahead (some rest) := by
  refine of_body mem_production traces fun inside => ?_
  obtain ⟨_, _, _, _, _, head, single, rfl, rfl⟩ := traces_sequence_append_some inside
  obtain ⟨_, _, _, _, _, body, none, rfl, rfl⟩ := traces_sequence_cons_some.mp single
  obtain ⟨rfl, same⟩ := traces_sequence_nil.mp none
  cases same
  obtain ⟨_, rfl, -⟩ := exists_cut body
  -- Up to the sign of the definition the text is inside of what the sign closes.
  obtain ⟨others, reading, short⟩ : ∃ others reading,
      Traces (.sequence opening) ahead others reading :=
    exists_traces_of_known rfl (by decide) ahead
  have floor : AtLeast (some 2) ahead := by
    rintro least ⟨⟩
    exact ⟨2, two, le_rfl⟩
  have appends : Appends tail (.sequence opening) ahead others reading :=
    short.appends (by decide +kernel : staysWithin false (some 2) _ = true) floor nofun
  obtain ⟨rfl, same⟩ := head.unique appends.traces
  obtain ⟨⟨first, middle⟩, rfl, equal⟩ := Option.map_eq_some_iff.mp same.symm
  obtain ⟨rfl, behind⟩ := Prod.mk.inj equal
  obtain rfl := List.append_cancel_right behind
  have even : tally middle = some 0 := by
    have gains : gain (.sequence opening) = some 2 := rfl
    have closes := short.tally_eq gains
    rw [two] at closes
    obtain ⟨amount, here, same⟩ := Option.map_eq_some_iff.mp closes.symm
    obtain rfl : amount = 0 := by omega
    exact here
  obtain ⟨_, ⟨second, traces', severs⟩, same⟩ :=
    (alternation body even leads enough).cons nil
  obtain ⟨_, rfl, rfl⟩ := Option.map_eq_some_iff.mp same
  exact ⟨_, ⟨others ++ second, short.append traces',
    (Severs.append_sealed (fun spot among => (appends.inner spot among).sealed)
      fun spot among => .inl (appends.inner spot among).above).append severs⟩, rfl⟩

/-- Behind the last clause before the cut there is no other one. -/
theorem missed_production (traces : Traces (.call "production") (rest ++ tail) asked none)
    (leads : Leads (rest ++ tail) tail) (enough : ranks.length ≤ room) :
    Cuts tail (room + 1) (.call "production") asked rest none := by
  have short : Leads rest [] := leads.cut
  have even : tally rest = some 0 := short.tally_eq.symm.trans rfl
  obtain ⟨_, number⟩ := (refuses_sectionNumber (by simp) : Refuses 1 _ []).exists_traces rfl
  obtain ⟨_, label⟩ := (refuses_name (by simp) : Refuses 2 _ []).exists_traces rfl
  obtain ⟨rfl, ⟨_, _, _, _, -, -, none⟩ | ⟨_, holds, -⟩⟩ := traces_call.mp traces
  · cases none
  · refine call_missed holds mem_production (not_noted (.append even) (by simp [quotedChars])
      (by simp [enclosing])) (explorable_of_blanks short enough) ?_
    have missed : Traces (.sequence (opening.tail ++ [.call "alternation"])) [] _ none :=
      .broken (.absent number) (.stop label)
    refine stops_at_end ((holds_iff mem_production).mp holds) leads even missed ?_ enough
    rw [List.forall_mem_append]
    exact ⟨number.explorable_of_flat (by decide) enough,
      label.explorable_of_flat (by decide) enough⟩

/-- Clauses before the cut are read up to the same places, and all but the last one have a balance
before them. -/
theorem clauses
    (traces : Traces (.zeroOrMore (.call "production")) (ahead ++ tail) asked
      (some (parts, rest ++ tail)))
    (leads : Leads (rest ++ tail) tail) (enough : ranks.length ≤ room) :
    (ahead = rest ∨ ∃ amount ∈ tally ahead, 2 ≤ amount) ∧
      Cuts tail (room + 7) (.zeroOrMore (.call "production")) asked ahead (some rest) := by
  have short : Leads rest [] := leads.cut
  have even : tally rest = some 0 := short.tally_eq.symm.trans rfl
  generalize same : Node.zeroOrMore (.call "production") = node at traces
  generalize read : some (parts, rest ++ tail) = reading at traces
  generalize split : ahead ++ tail = place at traces
  induction traces generalizing ahead parts with
  | exhausted misses =>
      cases same
      subst split
      simp only [if_true, Option.some.injEq, Prod.mk.injEq, List.append_cancel_right_eq] at read
      obtain ⟨-, rfl⟩ := read
      have roomy := enough.trans (Nat.le_add_right _ 6)
      exact ⟨.inl rfl, absent (missed_production misses leads roomy)⟩
  | idle once =>
      cases same
      exact absurd (once.length_lt_of_moves rfl) (lt_irrefl _)
  | again once moves later _ induction =>
      cases same
      cases read
      subst split
      obtain ⟨middle, rfl, -⟩ := exists_cut later
      obtain ⟨balanced, cuts⟩ := induction rfl rfl rfl
      have closes := (once.weighs (rfl : gain (.call "production") = some 2)).cut
      rcases balanced with rfl | ⟨amount, here, least⟩
      · have two : tally ahead = some 2 := by
          rw [closes, even]
          rfl
        exact ⟨.inr ⟨2, two, le_rfl⟩,
          again (production once two leads enough) (by simpa using moves) cuts⟩
      · have more : tally ahead = some (2 + amount) := by
          rw [closes, here]
          rfl
        have inner : Inner ⟨"production", ahead⟩ := by
          refine ⟨⟨by simp, fun needs low => ?_⟩, ne_nil_of_moves once rfl⟩
          cases low
          exact ⟨2 + amount, more, by omega⟩
        exact ⟨.inr ⟨2 + amount, more, by omega⟩, again
          (of_sealed inner.sealed (.inl inner.above) once rfl) (by simpa using moves) cuts⟩
  | _ => cases same

end Cuts

/-! ### Texts -/

/-- Behind a run of clauses, and the spaces and comments that follow them, a text may be cut off:
what is left is read as a whole. -/
theorem exists_treeOf {text : List Char} {known : Set Spot}
    (traces : Traces (.zeroOrMore (.call "production")) (text ++ tail) asked
      (some (parts, middle)))
    (explores : Explores 1023 ∅ asked known) (leads : Leads middle tail) :
    ∃ tree, treeOf grammar text = .ok tree := by
  obtain ⟨rest, rfl⟩ := leads.exists_chars
  obtain ⟨-, _, ⟨others, clauses, severs⟩, same⟩ :=
    Cuts.clauses traces leads (by decide : ranks.length ≤ 1016)
  obtain ⟨⟨_, _⟩, rfl, rfl⟩ := Option.map_eq_some_iff.mp same
  obtain ⟨after, explored, -⟩ := severs.explores (transfers_cut tail) explores refuted_empty
    closed_empty refuted_empty fun _ among => among.elim
  have ending : Leads _ [] := leads.cut
  obtain ⟨_, _, gap⟩ := ending.traces
  obtain ⟨last, blank⟩ := gap.explorable_of_call (by decide) (by decide : ranks.length ≤ 1023) after
    (explored.complete closed_empty).closed (explored.refuted refuted_empty)
  obtain ⟨_, reads, -⟩ := traces_wholeText clauses gap
  have whole : Explores 1024 ∅ [⟨"grammar", text⟩] _ :=
    .enter id ⟨_, mem_wholeText, reads⟩ (explores_append.mpr ⟨after, explored, blank⟩) .nil
  obtain ⟨tree, parsed, -⟩ := exists_parseAll_of_explores reads whole
  have parsed : ((setting grammar).parseAll "grammar" text).1 = .ok tree := parsed
  exact ⟨tree, by rw [treeOf, parsed]⟩

/-- No clause begins behind a run of clauses and the spaces and comments that follow them. -/
theorem exists_missed_production {text : List Char}
    (traces : Traces (.zeroOrMore (.call "production")) text asked (some (parts, middle)))
    (leads : Leads middle tail) :
    ∃ others, Traces (.call "production") tail others none := by
  obtain ⟨others, misses⟩ : ∃ others, Traces (.call "production") middle others none :=
    traces.steps (fun _ rest => ∃ others, Traces (.call "production") rest others none)
      (fun misses => ⟨_, misses⟩)
      (fun once => absurd (once.length_lt_of_moves rfl) (lt_irrefl _)) fun _ later => later
  obtain ⟨_, _, gap⟩ := leads.traces
  obtain ⟨_, none⟩ := leads.halts.exists_misses
  have nothing : Leads tail tail := ⟨_, _, .exhausted none⟩
  obtain ⟨_, _, gap'⟩ := nothing.traces
  obtain ⟨rfl, ⟨_, _, _, _, -, -, read⟩ | ⟨_, holds, -⟩⟩ := traces_call.mp misses
  · cases read
  · -- A clause begins with spaces and comments, and what it misses stands behind them.
    rcases traces_sequence_cons.mp ((holds_iff mem_production).mp holds) with
      ⟨other, -⟩ | ⟨_, _, _, _, _, same, row, -, missed⟩
    · cases (other.unique gap).2
    · obtain rfl := Reading.prepend_eq_none_iff.mp missed.symm
      cases (same.unique gap).2
      exact ⟨_, .missed mem_production (.broken gap' row)⟩

/-- A syntax error is a place between two characters of the text. No space, no line break, no
complete comment and no clause begins there, and what lies before it is read as a whole text by
itself. -/
theorem syntax_error_behind_clauses {text : String} {span : Span}
    (fails : compile text = .error (.invalidSyntax span)) :
    span.start = span.stop ∧ span.stop < byteLength text.toList ∧
      IsBoundary text.toList span.stop ∧
        Parses grammar text.toList span.stop .empty (.call "production") .unmatched ∧
          ∃ before behind, text.toList = before ++ behind ∧ byteLength before = span.stop ∧
            Halts behind ∧ ∃ tree, treeOf grammar before = .ok tree := by
  rcases bind_eq_error_iff.mp fails with reads | ⟨root, reads, translates⟩
  · obtain ⟨asked, parts, middle, place, known, whole, rfl, more, leads, traces, explores⟩ :=
      exists_traces_of_invalidSyntax reads
    rw [← whole] at traces ⊢
    have within : place.offset < byteLength place.whole := by
      rw [Cursor.byteLength_whole]
      exact Nat.lt_add_of_pos_right (Nat.pos_of_ne_zero fun none =>
        more (eq_nil_of_byteLength_eq_zero none))
    have bytes : byteLength place.before.reverse = place.offset := by
      simp [place.offset_eq]
    obtain ⟨_, misses⟩ := exists_missed_production traces leads
    exact ⟨rfl, within, place.isBoundary, misses.parses_unmatched rfl, place.before.reverse,
      place.rest, rfl, bytes, leads.halts, exists_treeOf traces explores leads⟩
  · have points := locates_grammarOf (sound_of_treeOf reads)
    rw [translates] at points
    exact points.elim

/-- A text whose second line opens a comment that nothing closes. -/
def openText : String := "a ::= 'x' # more\n/* open\n"

/-- The error is where the open comment begins: the comment before it is complete. -/
theorem syntax_error_behind_clauses_open :
    compile openText = .error (.invalidSyntax ⟨17, 17⟩) ∧
      Parses grammar openText.toList 17 .empty (.call "production") .unmatched ∧
        ∃ before behind, openText.toList = before ++ behind ∧ byteLength before = 17 ∧
          Halts behind ∧ ∃ tree, treeOf grammar before = .ok tree := by
  have unread : treeOf grammar openText.toList = .error (.invalidSyntax ⟨17, 17⟩) :=
    treeOf_of_uncached 9 (by decide +kernel) (by decide +kernel) (by decide +kernel)
  have fails : compile openText = .error (.invalidSyntax ⟨17, 17⟩) := by
    rw [compile, compileWith, unread]
    rfl
  obtain ⟨-, -, -, misses, split⟩ := syntax_error_behind_clauses fails
  exact ⟨fails, misses, split⟩

end Dialect

end Bnf

end ParametricGrammar
