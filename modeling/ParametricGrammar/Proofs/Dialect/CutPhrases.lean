import ParametricGrammar.Proofs.Dialect.Cuts
/-!
# The phrases of a body that is cut off

Outside of brackets the phrases of a body are lexemes, and bracketed parts that the cut does not
reach. Each of them ends in the text that is cut off where it ends with the tail, and where a phrase
is missed before the tail there is nothing left to read without it.
-/

namespace ParametricGrammar

namespace Bnf

namespace Dialect

variable {name sign : String} {node child : Node} {nodes : List Node}
  {ahead rest last tail : List Char} {room : ℕ} {asked before others : List Spot}
  {parts : List Part} {reading : Reading} {reached : Option (List Char)}

/-- What is read up to a place before the tail starts before the tail. -/
theorem exists_cut (traces : Traces node ahead asked (some (parts, rest ++ tail))) :
    ∃ short, ahead = short ++ tail ∧ rest <:+ short := by
  obtain ⟨chars, split⟩ := traces.exists_chars
  exact ⟨chars ++ rest, by rw [split, List.append_assoc], List.suffix_append _ _⟩

/-- Of two parts that are read up to a place before the tail, the first one ends before it, too. -/
theorem exists_pair
    (traces : Traces (.sequence [node, child]) (ahead ++ tail) asked (some (parts, rest ++ tail))) :
    ∃ before behind left right middle,
      Traces node (ahead ++ tail) before (some (left, middle ++ tail)) ∧
        Traces child (middle ++ tail) behind (some (right, rest ++ tail)) ∧
          asked = before ++ (behind ++ []) := by
  obtain ⟨_, _, _, _, _, first, row, rfl, rfl⟩ := traces_sequence_cons_some.mp traces
  obtain ⟨_, _, _, _, _, second, none, rfl, rfl⟩ := traces_sequence_cons_some.mp row
  obtain ⟨rfl, same⟩ := traces_sequence_nil.mp none
  cases same
  obtain ⟨middle, rfl, -⟩ := exists_cut second
  exact ⟨_, _, _, _, middle, first, second, rfl⟩

/-- What reads something up to a place before the tail does not start at the tail. -/
theorem ne_nil_of_moves (traces : Traces node (ahead ++ tail) asked (some (parts, rest ++ tail)))
    (reads : moves node = true) : ahead ≠ [] := by
  rintro rfl
  have shorter := traces.length_lt_of_moves reads
  simp only [List.length_append, List.length_nil] at shorter
  omega

theorem Traces.even_cut
    (traces : Traces node (ahead ++ tail) asked (some (parts, rest ++ tail)))
    (still : gain node = some 0) (even : tally ahead = some 0) : tally rest = some 0 := by
  have here := (traces.weighs still).cut
  rw [even] at here
  simpa using here.symm

namespace Cuts

/-! ### Lexemes -/

/-- A lexeme is read in the place of one with the tail. -/
theorem lexeme (light : name ∈ weightless) (even : tally ahead = some 0)
    (enough : ranks.length ≤ room) (traces : Traces (.call name) (ahead ++ tail) asked reading)
    {read : Reading} (short : Traces (.call name) ahead others read) :
    Cuts tail room (.call name) asked ahead (read.map Prod.snd) := by
  have flat : ∀ name ∈ weightless, isFlat name = true := by decide
  obtain ⟨rfl, -⟩ := traces_call.mp traces
  obtain ⟨rfl, -⟩ := traces_call.mp short
  refine of_quiet short ?_ ?_
  · simpa using quiet_of_weightless light (.append even)
  · simpa using short.explorable_of_call (flat name light) enough

/-- Spaces and comments are read up to the same place. -/
theorem ignorable
    (traces : Traces (.call "s-ignorable") (ahead ++ tail) asked (some (parts, rest ++ tail)))
    (even : tally ahead = some 0) (enough : ranks.length ≤ room) :
    Cuts tail room (.call "s-ignorable") asked ahead (some rest) := by
  obtain ⟨_, _, short⟩ := (Leads.of_call traces).cut.traces
  exact lexeme (by decide) even enough traces short

private theorem named
    (traces : Traces (.call "production-name") (ahead ++ tail) asked (some (parts, rest ++ tail)))
    (even : tally ahead = some 0) (enough : ranks.length ≤ room) :
    Cuts tail room (.call "production-name") asked ahead (some rest) := by
  obtain ⟨_, _, short⟩ := name_cut traces
  exact lexeme (by decide) even enough traces short

private theorem unnamed (traces : Traces (.call "production-name") (ahead ++ tail) asked none)
    (even : tally ahead = some 0) (more : ahead ≠ []) (enough : ranks.length ≤ room) :
    Cuts tail room (.call "production-name") asked ahead none := by
  obtain ⟨_, _, _, -, -, -, none⟩ | ⟨others, -⟩ := traces_name traces
  · cases none
  · obtain ⟨char, behind, rfl⟩ := List.exists_cons_of_ne_nil more
    obtain ⟨_, short⟩ := (refuses_name others : Refuses 2 _ (char :: behind)).exists_traces rfl
    exact lexeme (by decide) even enough traces short

/-! ### What starts with a bracket -/

private theorem roomy_of_opener (named : name ∈ openers) (even : tally ahead = some 0)
    (enough : ranks.length < room) : Roomy room ⟨name, ahead⟩ := by
  have kinds : ∀ name ∈ openers, isFlat name = true ∨ name ∈ enclosing := by decide
  rcases kinds name named with flat | encloses
  · exact roomy_flat flat enough.le
  · exact .inr (.inl ⟨encloses, even, enough⟩)

/-- What may start with a bracket behind a phrase is read up to the same place, and the cut is where
it is not there. -/
theorem optional_opener (named : name ∈ openers) (flat : isFlat name = true)
    (missed : Traces (.call name) [] others none)
    (traces : Traces (.optional (.call name)) (ahead ++ tail) asked (some (parts, rest ++ tail)))
    (even : tally ahead = some 0) (enough : ranks.length ≤ room) :
    Cuts tail room (.optional (.call name)) asked ahead (some rest) := by
  by_cases none : ahead = []
  · subst none
    obtain ⟨short, split, suffix⟩ := exists_cut traces
    obtain rfl : [] = short := List.append_cancel_right split
    obtain rfl := List.suffix_nil.mp suffix
    have single : asked = [⟨name, [] ++ tail⟩] := by
      obtain ⟨_, -, once⟩ | ⟨once, -⟩ := traces_optional.mp traces
      · exact (traces_call.mp once).1
      · exact (traces_call.mp once).1
    obtain ⟨rfl, -⟩ := traces_call.mp missed
    subst single
    refine optional (of_quiet missed ?_ ?_)
    · simpa using quiet_of_length le_rfl
    · simpa using missed.explorable_of_call flat enough
  · have sealed : (⟨name, ahead⟩ : Spot).Sealed tail := sealed_of_opener named even none
    have roomy : Roomy room ⟨name, ahead⟩ := roomy_flat flat enough
    obtain ⟨_, ⟨⟩, once⟩ | ⟨once, same⟩ := traces_optional.mp traces
    · have cuts : Cuts tail room _ _ _ (some rest) := of_sealed sealed roomy once rfl
      exact optional cuts
    · simp only [Option.some.injEq, Prod.mk.injEq, List.append_cancel_right_eq] at same
      obtain ⟨-, rfl⟩ := same
      have cuts : Cuts tail room _ _ _ Option.none := of_sealed sealed roomy once rfl
      exact optional cuts

/-- A choice starts with what makes no difference to the tail. -/
theorem first_sealed (sealed : (⟨name, ahead⟩ : Spot).Sealed tail)
    (roomy : Roomy room ⟨name, ahead⟩)
    (traces : Traces (.first (.call name :: nodes)) (ahead ++ tail) asked reading)
    (ends : reading.map Prod.snd = reached.map (· ++ tail))
    (later : ∀ {behind}, Traces (.first nodes) (ahead ++ tail) behind reading →
      Cuts tail room (.first nodes) behind ahead reached) :
    Cuts tail room (.first (.call name :: nodes)) asked ahead reached := by
  obtain ⟨read, rfl, head⟩ | ⟨_, _, head, others, rfl⟩ := traces_first_cons.mp traces
  · have cuts := of_sealed sealed roomy head ends
    obtain ⟨rest, rfl, -⟩ := Option.map_eq_some_iff.mp ends.symm
    exact chosen cuts
  · have cuts : Cuts tail room _ _ _ none := of_sealed sealed roomy head rfl
    exact next cuts (later others)

/-! ### Atoms -/

private theorem reference (traces : Traces (.call "reference") (ahead ++ tail) asked reading)
    (ends : reading.map Prod.snd = reached.map (· ++ tail)) (even : tally ahead = some 0)
    (more : ahead ≠ []) (enough : ranks.length ≤ room) :
    Cuts tail (room + 1) (.call "reference") asked ahead reached := by
  have member : ("reference", .sequence
      [.call "production-name", .optional (.call "parameter-list")]) ∈ rules := by simp [rules]
  rcases reading with _ | ⟨parts, behind⟩
  · obtain rfl : reached = none := by simpa using ends.symm
    obtain ⟨rfl, ⟨_, _, _, _, -, -, none⟩ | ⟨_, holds, -⟩⟩ := traces_call.mp traces
    · cases none
    obtain ⟨label, -⟩ | ⟨_, _, _, _, _, -, row, rfl, none⟩ :=
      traces_sequence_cons.mp ((holds_iff member).mp holds)
    · have cuts := unnamed label even more enough
      obtain ⟨_, ⟨_, short, -⟩, same⟩ := id cuts
      obtain rfl := Option.map_eq_none_iff.mp same
      have missed : Traces (.call "reference") ahead _ none := .missed member (.stop short)
      refine call_missed holds member (not_noted (.append even) (by simp [quotedChars])
        (by simp [enclosing])) ?_ (stop cuts)
      exact missed.explorable_of_call (by decide) (enough.trans (Nat.le_succ _))
    · obtain rfl := Reading.prepend_eq_none_iff.mp none.symm
      obtain ⟨list, -⟩ | ⟨_, _, _, _, _, -, last, -, none⟩ := traces_sequence_cons.mp row
      · obtain ⟨_, none, -⟩ | ⟨-, none⟩ := traces_optional.mp list <;> cases none
      · obtain ⟨-, rfl⟩ := traces_sequence_nil.mp last
        cases none
  · obtain ⟨rest, rfl, same⟩ := Option.map_eq_some_iff.mp ends.symm
    obtain rfl := same
    refine of_body member traces fun inside => ?_
    obtain ⟨_, _, _, _, _, label, list, rfl⟩ := exists_pair inside
    obtain ⟨_, missed⟩ := (refuses_parameterList (by simp) : Refuses 1 _ []).exists_traces rfl
    have even' := label.even_cut rfl even
    have list := optional_opener (by decide) (by decide) missed list even' enough
    exact (named label even enough).cons (list.cons nil)

/-- What is tried for an atom where no bracket opens and no code point is. -/
def plainAtoms : List Node := [.call "quoted-string", .call "any-char", .call "reference"]

/-- What is not taken for a code point with the tail is none without it either. -/
theorem exists_misses_hexChar
    (misses : Traces (.call "hex-char") (ahead ++ tail) before none)
    (traces : Traces (.first plainAtoms) (ahead ++ tail) asked reading)
    (ends : reading.map Prod.snd = reached.map (· ++ tail)) (more : ahead ≠ []) :
    ∃ others, Traces (.call "hex-char") ahead others none := by
  by_cases first : ahead.head? = some 'x'
  swap
  · exact (refuses_hexChar_of_ne first : Refuses 1 _ _).exists_traces rfl
  have first' : (ahead ++ tail).head? = some 'x' := by rw [List.head?_append, first]; rfl
  -- A name starts here, and it is taken for a reference.
  obtain ⟨_, _, label⟩ := exists_traces_call
    (by simp [rules]; rfl : ("production-name", _) ∈ rules) (ahead ++ tail)
  obtain ⟨name, middle, _, split, valid, stops, rfl⟩ | ⟨letters, -⟩ := traces_name label
  swap
  · exact absurd (letters 'x' first') (by decide)
  obtain ⟨_, quoted⟩ := (refuses_quotedString (by simp [first']) (by simp [first']) :
    Refuses 1 _ (ahead ++ tail)).exists_traces rfl
  obtain ⟨_, dot⟩ := (refuses_anyChar (by simp [first']) :
    Refuses 1 _ (ahead ++ tail)).exists_traces rfl
  obtain ⟨_, list, optional⟩ : ∃ asked list,
      Traces (.optional (.call "parameter-list")) middle asked list :=
    exists_traces_of_known rfl (by decide) middle
  obtain ⟨⟨_, rest⟩, rfl⟩ : ∃ read, list = some read := by
    obtain ⟨read, rfl, -⟩ | ⟨-, rfl⟩ := traces_optional.mp optional <;> exact ⟨_, rfl⟩
  have row := Traces.cons label (.cons optional .nil)
  obtain ⟨_, split'⟩ := row.exists_chars
  obtain ⟨-, rfl⟩ := traces.unique (.next quoted (.next dot (.chosen
    (.matched (by simp [rules] : ("reference", _) ∈ rules) split' row))))
  obtain ⟨short, rfl, rfl⟩ := Option.map_eq_some_iff.mp ends.symm
  obtain ⟨between, rfl, -⟩ := exists_cut optional
  rw [← List.append_assoc] at split
  obtain rfl := List.append_cancel_right split
  rw [List.append_assoc] at misses
  exact hexChar_missed misses valid stops

/-- What is tried for an atom. -/
def atoms : List Node :=
  [.call "lookaround", .call "special", .call "group", .call "code-point-range",
    .call "hex-char"] ++ plainAtoms

private theorem mem_atom : ("atom", .first atoms) ∈ rules := by simp [rules, atoms, plainAtoms]

private theorem first_opener (named : name ∈ openers) (even : tally ahead = some 0)
    (more : ahead ≠ []) (enough : ranks.length < room)
    (traces : Traces (.first (.call name :: nodes)) (ahead ++ tail) asked reading)
    (ends : reading.map Prod.snd = reached.map (· ++ tail))
    (later : ∀ {behind}, Traces (.first nodes) (ahead ++ tail) behind reading →
      Cuts tail room (.first nodes) behind ahead reached) :
    Cuts tail room (.first (.call name :: nodes)) asked ahead reached :=
  first_sealed (sealed_of_opener named even more) (roomy_of_opener named even enough) traces ends
    later

private theorem plain (traces : Traces (.first plainAtoms) (ahead ++ tail) asked reading)
    (ends : reading.map Prod.snd = reached.map (· ++ tail)) (even : tally ahead = some 0)
    (more : ahead ≠ []) (enough : ranks.length ≤ room) :
    Cuts tail (room + 1) (.first plainAtoms) asked ahead reached := by
  have quoted : Roomy (room + 1) ⟨"quoted-string", ahead⟩ :=
    roomy_flat (by simp; decide) (enough.trans (Nat.le_succ _))
  refine first_sealed (sealed_of_quotes even more) quoted traces ends fun traces => ?_
  refine first_opener (by decide) even more (Nat.lt_succ_of_le enough) traces ends fun traces => ?_
  obtain ⟨read, rfl, head⟩ | ⟨_, _, head, others, rfl⟩ := traces_first_cons.mp traces
  · obtain ⟨rest, rfl, -⟩ := Option.map_eq_some_iff.mp ends.symm
    exact chosen (reference head ends even more enough)
  · obtain ⟨rfl, rfl⟩ := traces_first_nil.mp others
    obtain rfl : reached = none := by simpa using ends.symm
    exact next (reference head rfl even more enough) noOther

/-- An atom is read up to the same place, or there is none. -/
theorem choice (traces : Traces (.first atoms) (ahead ++ tail) asked reading)
    (ends : reading.map Prod.snd = reached.map (· ++ tail)) (even : tally ahead = some 0)
    (more : ahead ≠ []) (enough : ranks.length ≤ room) :
    Cuts tail (room + 1) (.first atoms) asked ahead reached := by
  have enough' : ranks.length < room + 1 := Nat.lt_succ_of_le enough
  refine first_opener (by decide) even more enough' traces ends fun traces => ?_
  refine first_opener (by decide) even more enough' traces ends fun traces => ?_
  refine first_opener (by decide) even more enough' traces ends fun traces => ?_
  refine first_opener (by decide) even more enough' traces ends fun traces => ?_
  obtain ⟨⟨_, _⟩, rfl, head⟩ | ⟨_, _, head, others, rfl⟩ := traces_first_cons.mp traces
  · obtain ⟨rest, rfl, same⟩ := Option.map_eq_some_iff.mp ends.symm
    obtain rfl := same
    obtain ⟨_, _, short⟩ := hexChar_cut head
    exact chosen (lexeme (by decide) even enough'.le head short)
  · obtain ⟨_, short⟩ := exists_misses_hexChar head others ends more
    exact next (lexeme (by decide) even enough'.le head short) (plain others ends even more enough)

private theorem atom
    (traces : Traces (.call "atom") (ahead ++ tail) asked (some (parts, rest ++ tail)))
    (even : tally ahead = some 0) (more : ahead ≠ []) (enough : ranks.length ≤ room) :
    Cuts tail (room + 2) (.call "atom") asked ahead (some rest) :=
  of_body mem_atom traces fun inside => choice inside rfl even more enough

private theorem quantified
    (traces : Traces (.call "quantified") (ahead ++ tail) asked (some (parts, rest ++ tail)))
    (even : tally ahead = some 0) (more : ahead ≠ []) (enough : ranks.length ≤ room) :
    Cuts tail (room + 3) (.call "quantified") asked ahead (some rest) := by
  have member :
      ("quantified", .sequence [.call "atom", .optional (.call "quantifier")]) ∈ rules := by
    simp [rules]
  refine of_body member traces fun inside => ?_
  obtain ⟨_, _, _, _, _, first, count, rfl⟩ := exists_pair inside
  obtain ⟨_, missed⟩ := (refuses_quantifier ⟨by simp, by simp [visible]⟩ :
    Refuses 1 _ []).exists_traces rfl
  exact (atom first even more enough).cons ((optional_opener (by decide) (by decide) missed count
    (first.even_cut rfl even) (enough.trans (Nat.le_add_right _ _))).cons nil)

/-! ### Rows of operands -/

/-- A repetition stops at the same place if each of its matches is read up to the same place, and
what ends it is missed in the text that is cut off, too. -/
theorem repeats
    (traces : Traces (.zeroOrMore child) (ahead ++ tail) asked (some (parts, rest ++ tail)))
    (even : tally ahead = some 0) (still : gain child = some 0) (reads : moves child = true)
    (stop : ∀ {asked}, Traces child (rest ++ tail) asked none → tally rest = some 0 →
      Cuts tail room child asked rest none)
    (step : ∀ {ahead before behind parts more middle}, Traces child (ahead ++ tail) before
      (some (parts, middle ++ tail)) →
      Traces (.zeroOrMore child) (middle ++ tail) behind (some (more, rest ++ tail)) →
      tally ahead = some 0 → Cuts tail room child before ahead (some middle)) :
    Cuts tail room (.zeroOrMore child) asked ahead (some rest) := by
  generalize same : Node.zeroOrMore child = node at traces
  generalize read : some (parts, rest ++ tail) = reading at traces
  generalize split : ahead ++ tail = place at traces
  induction traces generalizing ahead parts with
  | exhausted misses =>
      cases same
      subst split
      simp only [if_true, Option.some.injEq, Prod.mk.injEq, List.append_cancel_right_eq] at read
      obtain ⟨-, rfl⟩ := read
      exact absent (stop misses even)
  | idle once =>
      cases same
      exact absurd (once.length_lt_of_moves reads) (lt_irrefl _)
  | again head moves later _ induction =>
      cases same
      cases read
      subst split
      obtain ⟨_, rfl, -⟩ := exists_cut later
      exact again (step head later even) (by simpa using moves)
        (induction (head.even_cut still even) rfl rfl rfl)
  | _ => cases same

/-- A row that goes on behind spaces and comments is missed where the text is cut off behind
them. -/
theorem stops_at_end
    (traces : Traces (.sequence (.call "s-ignorable" :: nodes)) (ahead ++ tail) asked none)
    (leads : Leads (ahead ++ tail) tail) (even : tally ahead = some 0)
    (missed : Traces (.sequence nodes) [] others none)
    (explorable : ∀ spot ∈ others, Explorable room spot) (enough : ranks.length ≤ room) :
    Cuts tail room (.sequence (.call "s-ignorable" :: nodes)) asked ahead none := by
  obtain ⟨_, _, gap⟩ := leads.traces
  have short : Leads ahead [] := leads.cut
  obtain ⟨_, _, gap'⟩ := short.traces
  have quiet : Quiet (Tailed tail Noted) ⟨"s-ignorable", ahead ++ tail⟩ :=
    quiet_of_weightless (by simp [weightless]) (.append even)
  have row : Traces (.sequence (.call "s-ignorable" :: nodes)) ahead _ none := .broken gap' missed
  refine of_quiet row (fun spot among => ?_) ?_
  · obtain ⟨misses, -⟩ | ⟨_, _, _, _, _, gap'', row', rfl, -⟩ := traces_sequence_cons.mp traces
    · cases (misses.unique gap).2
    · obtain ⟨rfl, same⟩ := gap''.unique gap
      cases same
      rcases List.mem_append.mp among with among | among
      · exact List.mem_singleton.mp among ▸ quiet
      · exact quiet_of_length (row'.suffix_of_mem among).length_le
  · rw [List.forall_mem_append]
    exact ⟨by simpa using gap'.explorable_of_call (by decide) enough, explorable⟩

/-- A row that needs a sign behind spaces and comments misses it also in the text that is cut
off. -/
theorem stops_at_sign
    (traces : Traces (.sequence (.call "s-ignorable" :: .literal sign :: nodes)) (ahead ++ tail)
      asked none)
    (leads : Leads (ahead ++ tail) (last ++ tail)) (single : sign.toList.length = 1)
    (differs : ¬ sign.toList <+: last)
    (even : tally ahead = some 0) (enough : ranks.length ≤ room) :
    Cuts tail room (.sequence (.call "s-ignorable" :: .literal sign :: nodes)) asked ahead
      none := by
  by_cases ended : last = []
  · subst ended
    exact stops_at_end traces leads even (.stop (.otherLiteral differs)) (by simp) enough
  · obtain ⟨_, _, gap⟩ := leads.traces
    have appends : Appends tail (.literal sign) last [] none :=
      appends_char single ended (.otherLiteral differs)
    have missed := appends.traces
    have row : Traces (.sequence (.call "s-ignorable" :: .literal sign :: nodes)) (ahead ++ tail)
        _ none := .broken gap (.stop missed)
    obtain ⟨rfl, -⟩ := traces.unique row
    exact (ignorable gap even enough).cons (stop (otherLiteral differs))

/-- A phrase behind a sign is read up to the same place if the phrase is. -/
theorem behind_sign
    (traces : Traces (signed sign name) (ahead ++ tail) asked (some (parts, rest ++ tail)))
    (still : gain (.literal sign) = some 0) (even : tally ahead = some 0)
    (enough : ranks.length ≤ room)
    (phrase : ∀ {ahead asked parts},
      Traces (.call name) (ahead ++ tail) asked (some (parts, rest ++ tail)) →
      tally ahead = some 0 → Cuts tail room (.call name) asked ahead (some rest)) :
    Cuts tail room (signed sign name) asked ahead (some rest) := by
  obtain ⟨_, _, _, _, _, _, middle, _, gap, gap', inside, rfl, rfl⟩ := traces_signed_some traces
  obtain ⟨_, rfl, -⟩ := exists_cut inside
  obtain ⟨short, rfl, -⟩ := exists_cut gap'
  rw [← List.append_assoc] at gap
  have mark : Traces (.literal sign) (sign.toList ++ short) [] _ := .literal rfl
  have even' := mark.even still (gap.even_cut rfl even)
  exact (ignorable gap even enough).cons (literal.cons
    ((ignorable gap' even' enough).cons ((phrase inside (gap'.even_cut rfl even')).cons nil)))

private theorem exclusions
    (traces : Traces (.zeroOrMore exclusion) (ahead ++ tail) asked (some (parts, rest ++ tail)))
    (even : tally ahead = some 0) (leads : Leads (rest ++ tail) (last ++ tail))
    (clear : last.head? ≠ some '-') (enough : ranks.length ≤ room) :
    Cuts tail (room + 3) (.zeroOrMore exclusion) asked ahead (some rest) := by
  have enough' : ranks.length ≤ room + 3 := enough.trans (Nat.le_add_right _ _)
  have differs : ¬ "-".toList <+: last := by
    rintro ⟨more, rfl⟩
    exact clear rfl
  refine repeats traces even rfl rfl (fun misses even =>
    stops_at_sign misses leads rfl differs even enough') fun once _ even => ?_
  exact behind_sign once rfl even enough' fun operand even =>
    quantified operand even (ne_nil_of_moves operand rfl) enough

/-- A difference is read up to the same place where no other operand is excluded. -/
theorem difference
    (traces : Traces (.call "difference") (ahead ++ tail) asked (some (parts, rest ++ tail)))
    (even : tally ahead = some 0) (leads : Leads (rest ++ tail) (last ++ tail))
    (clear : last.head? ≠ some '-') (enough : ranks.length ≤ room) :
    Cuts tail (room + 4) (.call "difference") asked ahead (some rest) := by
  have member : ("difference", .sequence [.call "quantified", .zeroOrMore exclusion]) ∈ rules := by
    simp [rules, exclusion]
  refine of_body member traces fun inside => ?_
  obtain ⟨_, _, _, _, _, first, others, rfl⟩ := exists_pair inside
  exact (quantified first even (ne_nil_of_moves first rfl) enough).cons
    ((exclusions others (first.even_cut rfl even) leads clear enough).cons nil)

/-- A production that is missed with its first part is missed in the text that is cut off, too. -/
theorem call_stopped {called : String} (member : (name, .sequence (.call called :: nodes)) ∈ rules)
    (traces : Traces (.call name) (ahead ++ tail) asked none)
    (misses : Traces (.call called) (ahead ++ tail) before none)
    (cuts : Cuts tail room (.call called) before ahead none) (even : tally ahead = some 0)
    (bare : name ∉ quotedChars) (other : name ∉ enclosing)
    (explorable : Explorable (room + 1) ⟨name, ahead⟩) :
    Cuts tail (room + 1) (.call name) asked ahead none := by
  obtain ⟨rfl, -⟩ := traces_call.mp traces
  exact call_missed ⟨_, member, .stop misses⟩ member (not_noted (.append even) bare other)
    explorable (stop cuts)

/-- Where no operand opens before the tail, there is none. -/
theorem missed_difference (traces : Traces (.call "difference") (ahead ++ tail) asked none)
    (letters : ∀ char ∈ ahead.head?, opensAtom char = false) (even : tally ahead = some 0)
    (more : ahead ≠ []) (enough : ranks.length ≤ room) :
    Cuts tail (room + 4) (.call "difference") asked ahead none := by
  have letters' : ∀ char ∈ (ahead ++ tail).head?, opensAtom char = false := by
    obtain ⟨char, behind, rfl⟩ := List.exists_cons_of_ne_nil more
    exact letters
  have least : 8 ≤ ranks.length := by decide
  obtain ⟨spots, misses⟩ := (refuses_atom letters' : Refuses 4 _ _).exists_traces rfl
  obtain ⟨spots', misses'⟩ := (refuses_quantified letters' : Refuses 5 _ _).exists_traces rfl
  have atom : Cuts tail (room + 2) (.call "atom") spots ahead none := by
    obtain ⟨rfl, ⟨_, _, _, _, _, -, none⟩ | ⟨_, holds, -⟩⟩ := traces_call.mp misses
    · cases none
    · refine call_missed holds mem_atom (not_noted (.append even) (by simp [quotedChars])
          (by simp [enclosing]))
        ((refuses_atom letters : Refuses 4 _ _).explorable.mono (by omega)) ?_
      exact choice ((holds_iff mem_atom).mp holds) rfl even more enough
  have quantified : Cuts tail (room + 3) (.call "quantified") spots' ahead none :=
    call_stopped (by simp [rules]; rfl) misses' misses atom even (by simp [quotedChars])
      (by simp [enclosing])
      ((refuses_quantified letters : Refuses 5 _ _).explorable.mono (by omega))
  exact call_stopped (by simp [rules]; rfl) traces misses' quantified even (by simp [quotedChars])
    (by simp [enclosing]) ((refuses_difference letters : Refuses 7 _ _).explorable.mono (by omega))

end Cuts

/-! ### Heads -/

/-- A head of a clause without the tail is one with the tail, too: the sign of the definition ends
the name before it, and the spaces and comments between them. -/
theorem exists_head
    (traces : Traces (.sequence opening.tail) ahead asked (some (parts, rest)))
    (sealed : (⟨"section-number", ahead⟩ : Spot).Sealed tail) (even : tally ahead = some 0) :
    ∃ others parts, Traces (.sequence opening.tail) (ahead ++ tail) others
      (some (parts, rest ++ tail)) := by
  obtain ⟨_, _, _, _, _, number, row, -, -⟩ := traces_sequence_cons_some.mp traces
  obtain ⟨_, _, _, behind, _, label, row, -, -⟩ := traces_sequence_cons_some.mp row
  obtain ⟨_, _, _, _, _, list, row, -, -⟩ := traces_sequence_cons_some.mp row
  obtain ⟨_, _, _, _, _, gap, row, -, -⟩ := traces_sequence_cons_some.mp row
  obtain ⟨_, _, _, _, _, mark, none, -, -⟩ := traces_sequence_cons_some.mp row
  obtain ⟨-, same⟩ := traces_sequence_nil.mp none
  cases same
  obtain ⟨-, -, rfl⟩ := traces_literal_some.mp mark
  have even' := number.even rfl even
  have long : 2 ≤ behind.length := by
    obtain ⟨_, split⟩ := list.exists_chars
    obtain ⟨_, split'⟩ := gap.exists_chars
    rw [split, split']
    simp
    omega
  have more : behind ≠ [] := by
    rintro rfl
    simp at long
  obtain ⟨name, _, _, rfl, valid, ends, same⟩ | ⟨-, none⟩ := traces_name label
  · cases same
    have ends' : endsName (behind ++ tail) = true := endsName_append ends long
    obtain ⟨_, _, label'⟩ := (takes_name valid ends' : Takes 3 _ _ _ _).exists_traces rfl
    rw [← List.append_assoc] at label'
    have leads : Leads _ (':' :: ([':', '='] ++ rest)) := .of_call gap
    have leads' : Leads (_ ++ tail) (':' :: ([':', '='] ++ rest) ++ tail) :=
      leads.append (by decide)
    obtain ⟨_, _, gap'⟩ := leads'.traces
    have list' : Traces _ (behind ++ tail) _ _ :=
      (sealed_of_opener (by decide) (label.even rfl even') more).optional list
    exact ⟨_, _, .cons (sealed.optional number) (.cons label' (.cons list' (.cons gap'
      (.cons (.literal rfl) .nil))))⟩
  · cases none

/-- What may be there and makes no difference to the tail is asked for alike. -/
theorem severs_optional (sealed : (⟨name, ahead⟩ : Spot).Sealed tail)
    (roomy : Roomy room ⟨name, ahead⟩)
    (misses : Traces (.sequence (.optional (.call name) :: nodes)) (ahead ++ tail) asked none)
    (short : Traces (.sequence (.optional (.call name) :: nodes)) ahead others none)
    (later : ∀ {first parts middle behind behind'},
      Traces (.optional (.call name)) ahead first (some (parts, middle)) →
      Traces (.sequence nodes) (middle ++ tail) behind none →
      Traces (.sequence nodes) middle behind' none → Severs tail room behind behind') :
    Severs tail room asked others := by
  obtain ⟨once, -⟩ | ⟨first, _, _, _, _, once, row, rfl, none⟩ := traces_sequence_cons.mp short
  · obtain ⟨_, none, -⟩ | ⟨-, none⟩ := traces_optional.mp once <;> cases none
  obtain rfl := Reading.prepend_eq_none_iff.mp none.symm
  obtain rfl : first = [⟨name, ahead⟩] := by
    obtain ⟨_, -, call⟩ | ⟨call, -⟩ := traces_optional.mp once <;> exact (traces_call.mp call).1
  have once' := sealed.optional once
  obtain ⟨none, -⟩ | ⟨_, _, _, _, _, other, row', rfl, none⟩ := traces_sequence_cons.mp misses
  · cases (none.unique once').2
  obtain rfl := Reading.prepend_eq_none_iff.mp none.symm
  obtain ⟨rfl, same⟩ := other.unique once'
  cases same
  exact (Severs.append_sealed (by simpa using sealed) (by simpa using roomy)).append
    (later once row' row)

/-- Behind the number of a head, what is asked for has its like without the tail. -/
theorem severs_label (misses : Traces (.sequence opening.tail.tail) (ahead ++ tail) asked none)
    (short : Traces (.sequence opening.tail.tail) ahead others none) (even : tally ahead = some 0)
    (enough : ranks.length ≤ room) : Severs tail room asked others := by
  have explorable := short.explorable_of_flat (by decide) enough
  obtain ⟨label, -⟩ | ⟨_, _, _, middle, _, label, row, rfl, none⟩ := traces_sequence_cons.mp
    (misses : Traces (.sequence (.call "production-name" :: opening.drop 3)) _ _ _)
  · obtain ⟨rfl, -⟩ := traces_call.mp label
    refine .of_quiet ?_ explorable
    simpa using quiet_of_weightless (by simp [weightless]) (.append even)
  obtain rfl := Reading.prepend_eq_none_iff.mp none.symm
  obtain ⟨rfl, -⟩ := traces_call.mp label
  have quiet : Quiet (Tailed tail Noted) ⟨"production-name", ahead ++ tail⟩ :=
    quiet_of_weightless (by simp [weightless]) (.append even)
  obtain ⟨chars, split⟩ := label.exists_chars
  by_cases far : middle.length ≤ tail.length
  · -- The name goes on behind the cut, and so does all that is asked for behind it.
    refine .of_quiet (fun spot among => ?_) explorable
    rcases List.mem_append.mp among with among | among
    · exact List.mem_singleton.mp among ▸ quiet
    · exact quiet_of_length ((row.suffix_of_mem among).length_le.trans far)
  · obtain ⟨behind, rfl⟩ : ∃ behind, middle = behind ++ tail := by
      obtain later | ⟨behind, same⟩ :=
        List.suffix_or_suffix_of_suffix ⟨chars, split.symm⟩ (List.suffix_append ahead tail)
      · exact absurd later.length_le far
      · exact ⟨behind, same.symm⟩
    have more : behind ≠ [] := by
      rintro rfl
      simp at far
    obtain ⟨_, _, label'⟩ := name_cut label
    have even' := label'.even rfl even
    obtain ⟨none, -⟩ | ⟨_, _, _, _, _, label'', row', rfl, none⟩ := traces_sequence_cons.mp
      (short : Traces (.sequence (.call "production-name" :: opening.drop 3)) _ _ _)
    · cases (none.unique label').2
    obtain rfl := Reading.prepend_eq_none_iff.mp none.symm
    obtain ⟨rfl, same⟩ := label''.unique label'
    cases same
    refine (Mirrors.of_quiet (by simpa using quiet) (List.forall_mem_append.mp explorable).1).append
      (severs_optional (sealed_of_opener (by decide) even' more)
        (roomy_flat (by simp; decide) enough) row row' fun list last last' =>
          .of_quiet (fun spot among => ?_) (last'.explorable_of_flat (by decide) enough))
    have named : spot.name = "s-ignorable" := List.mem_singleton.mp (last.mem_references among)
    have upTo : EvenUpTo tail spot.ahead :=
      (EvenUpTo.append (list.even rfl even')).of_weighs (last.weighs_of_mem rfl spot among)
    exact quiet_of_weightless (by simp [named, weightless]) upTo

namespace Cuts

/-- What is no head of a clause with the tail is none without it. -/
theorem head (traces : Traces (.call "production-head") (ahead ++ tail) asked none)
    (sealed : (⟨"section-number", ahead⟩ : Spot).Sealed tail) (even : tally ahead = some 0)
    (enough : ranks.length ≤ room) :
    Cuts tail (room + 1) (.call "production-head") asked ahead none := by
  obtain ⟨rfl, ⟨_, _, _, _, -, -, none⟩ | ⟨_, holds, -⟩⟩ := traces_call.mp traces
  · cases none
  have misses := (holds_iff mem_head).mp holds
  obtain ⟨others, reading, short⟩ : ∃ others reading,
      Traces (.sequence opening.tail) ahead others reading :=
    exists_traces_of_known rfl (by decide) ahead
  cases reading with
  | some read =>
      obtain ⟨_, _, found⟩ := exists_head short sealed even
      cases (misses.unique found).2
  | none =>
      refine call_missed holds mem_head (not_noted (.append even) (by simp [quotedChars])
        (by simp [enclosing])) ?_ ⟨_, ⟨others, short, ?_⟩, rfl⟩
      · exact (Traces.missed mem_head short).explorable_of_call (by decide)
          (enough.trans (Nat.le_succ _))
      · exact severs_optional sealed (roomy_flat (by simp; decide) enough) misses short
          fun number row row' => severs_label row row' (number.even rfl even) enough

end Cuts

end Dialect

end Bnf

end ParametricGrammar
