import ParametricGrammar.Proofs.Dialect.LastClause
/-!
# Texts one after the other

A text of clauses that goes on with another one in a new line is read as the clauses of both. The
run over the first text explores what it does without the second, and the run over the second one
what it does on its own, up to the spaces and comments before its first clause.
-/

namespace ParametricGrammar

namespace Bnf

namespace Dialect

variable {name : String} {node body : Node} {nodes : List Node}
  {ahead ahead' rest tail next : List Char} {room : ℕ} {asked before behind : List Spot}
  {parts : List Part} {reading : Reading} {spot other : Spot}

/-! ### Clauses without the spaces and comments between their parts -/

/-- What the clauses among some parts are made of. -/
def clausesOf (parts : List Part) : List (List Part) :=
  (parts.filter (·.name = "production")).map Part.significant

@[simp] theorem clausesOf_nil : clausesOf [] = [] := rfl

@[simp] theorem clausesOf_append (left right : List Part) :
    clausesOf (left ++ right) = clausesOf left ++ clausesOf right := by
  simp [clausesOf]

private theorem clausesOf_ignorable
    (traces : Traces (.call "s-ignorable") ahead asked (some (parts, rest))) :
    clausesOf parts = [] := by
  obtain ⟨-, _, _, _, _, -, -, same⟩ := traces_ignorable.mp traces
  cases same
  rfl

/-! ### The second text -/

/-- A spot lies behind the first clause of what comes next. -/
def Behind (next : List Char) (spot : Spot) : Prop := spot.ahead.length < next.length

/-- What a run with some room has to enter again nests little, unless it lies behind. -/
def Nests (next : List Char) (room : ℕ) (spot : Spot) : Prop :=
  Behind next spot ∨ (isFlat spot.name = true ∧ rank spot.name < room)

/-- Behind the first clause everything is known as in the second text alone. -/
theorem transfers_behind (next : List Char) :
    Transfers id (fun _ => True) (Behind next) (Nests next) where
  kept_of_asks _ _ := trivial
  holds _ holds := ⟨_, by rwa [List.map_id, id], rfl⟩
  fits_of_asks := by
    rintro room spot other (behind | ⟨flat, enough⟩) asks
    · exact .inl (asks.suffix.length_le.trans_lt behind)
    · obtain ⟨asked, reading, ⟨body, member, traces⟩, among⟩ := asks
      have lower := rank_lt_of_mem member flat (traces.mem_references among)
      refine .inr ⟨?_, by omega⟩
      simp only [isFlat, decide_eq_true_eq] at flat ⊢
      omega
  enters := by
    rintro room spot (behind | ⟨flat, enough⟩) - ⟨asked, holds⟩
    · exact .inl behind
    · exact .inr ((explorable_of_flat holds flat).mono enough)

/-- Spots behind other spaces and comments take the place of spots in the second text. -/
abbrev Follows (next : List Char) : ℕ → List Spot → List Spot → Prop :=
  Mirrors id (fun _ => True) (Behind next) (Nests next)

theorem Follows.refl (nests : ∀ spot ∈ asked, Nests next room spot) :
    Follows next room asked asked := by
  induction asked with
  | nil => exact .nil
  | cons spot asked induction =>
      rw [List.forall_mem_cons] at nests
      exact .image trivial nests.1 (induction nests.2)

private theorem nests_flat (flat : isFlat spot.name = true) (enough : ranks.length ≤ room) :
    Nests next room spot :=
  .inr ⟨flat, (of_decide_eq_true flat).trans_le enough⟩

/-- Other spaces and comments are read in the place of those before what comes next. -/
theorem Follows.blanks {others others' : List Spot} (leads : Leads ahead next)
    (leads' : Leads ahead' next) (enough : ranks.length ≤ room)
    (rest : Follows next room others others') :
    Follows next room (⟨"s-ignorable", ahead⟩ :: others) (⟨"s-ignorable", ahead'⟩ :: others') := by
  refine .less (fun below reaches _ => ?_) (.more ?_ rest)
  · exact (leads.of_reaches reaches).2.2.not_gt
  · obtain ⟨_, _, traces⟩ := leads'.traces
    exact traces.explorable_of_call (by decide) enough

/-- What is made of clauses and read up to the end has a balance, which is that of the signs of
their definitions. -/
theorem exists_tally
    (traces : Traces (.zeroOrMore (.call "production")) ahead asked (some (parts, rest)))
    (even : tally rest = some 0) : ahead = rest ∨ ∃ amount ∈ tally ahead, 2 ≤ amount := by
  refine traces.steps (fun ahead rest => tally rest = some 0 →
    ahead = rest ∨ ∃ amount ∈ tally ahead, 2 ≤ amount) ?_ ?_ ?_ even
  · exact fun _ _ => .inl rfl
  · exact fun _ _ => .inl rfl
  · intro ahead asked parts middle rest once later even
    have closes := once.tally_eq (rfl : gain (.call "production") = some 2)
    rcases later even with rfl | ⟨amount, here, least⟩
    · exact .inr ⟨2, by rw [closes, even]; rfl, le_rfl⟩
    · refine .inr ⟨2 + amount, by rw [closes, here]; rfl, by omega⟩

private theorem moves_of_production
    (traces : Traces (.call "production") ahead asked (some (parts, rest)))
    (even : tally rest = some 0) : rest ≠ ahead := by
  rintro rfl
  have closes := traces.tally_eq (rfl : gain (.call "production") = some 2)
  rw [even] at closes
  simp at closes

/-- A clause is read alike behind other spaces and comments. -/
theorem production_behind {ahead' : List Char} (leads : Leads ahead next)
    (leads' : Leads ahead' next)
    (traces : Traces (.call "production") ahead asked (some (parts, rest)))
    (closed : tally ahead ≠ none) (enough : ranks.length ≤ room) :
    rest.length < next.length ∧ ∃ parts',
      Traces (.call "production") ahead' [⟨"production", ahead'⟩] (some (parts', rest)) ∧
      clausesOf parts' = clausesOf parts ∧
      Follows next (room + 1) asked [⟨"production", ahead'⟩] := by
  obtain ⟨rfl, ⟨_, _, _, chars, holds, split, same⟩ | ⟨_, _, none⟩⟩ := traces_call.mp traces
  · cases same
    have inside :
        Traces (.sequence (.call "s-ignorable" :: (opening.tail ++ [.call "alternation"])))
          ahead _ _ :=
      (holds_iff mem_production).mp holds
    obtain ⟨_, _, _, _, _, gap, row, rfl, rfl⟩ := traces_sequence_cons_some.mp inside
    obtain rfl := leads.unique (.of_call gap)
    obtain ⟨before, _, _, middle, _, head, single, rfl, rfl⟩ := traces_sequence_append_some row
    obtain ⟨_, _, _, _, _, body, none, rfl, rfl⟩ := traces_sequence_cons_some.mp single
    obtain ⟨rfl, same⟩ := traces_sequence_nil.mp none
    cases same
    obtain ⟨rfl, _, _, _, _, -, -, same⟩ := traces_ignorable.mp gap
    cases same
    obtain ⟨rfl, -⟩ := traces_call.mp body
    -- The sign of the definition is read before the body.
    have shorter : middle.length < next.length := by
      refine head.length_lt fun same => ?_
      have closes := head.tally_eq (by decide +kernel : gain (.sequence opening.tail) = some 2)
      rw [same, leads.tally_eq] at closes
      obtain ⟨amount, here⟩ := Option.ne_none_iff_exists'.mp closed
      rw [here, Option.map_some, Option.some.injEq] at closes
      omega
    obtain ⟨_, behind⟩ := body.exists_chars
    obtain ⟨chars', gapParts, gap'⟩ := leads'.traces
    have inside' := gap'.cons row
    obtain ⟨chars'', split'⟩ := inside'.exists_chars
    have nests : ∀ spot ∈ before ++ ([⟨"alternation", middle⟩] ++ []), Nests next room spot := by
      rw [List.append_nil, List.forall_mem_append]
      refine ⟨fun spot among => nests_flat ?_ enough, by simpa using .inl shorter⟩
      have all : (Node.sequence opening.tail).references.all isFlat = true := by decide +kernel
      exact List.all_eq_true.mp all _ (head.mem_references among)
    refine ⟨?_, _, .matched mem_production split' inside', ?_, ?_⟩
    · rw [behind, List.length_append] at shorter
      omega
    · simp [clausesOf, Part.significant]
    · exact .instead holds ⟨_, mem_production, inside'⟩ rfl nofun
        (Follows.blanks leads leads' enough (Follows.refl nests)) .nil
  · cases none

/-- Spaces and comments alone are no clause. -/
theorem holds_of_blanks (leads : Leads ahead []) :
    (⟨"production", ahead⟩ : Spot).Holds
      [⟨"s-ignorable", ahead⟩, ⟨"section-number", []⟩, ⟨"production-name", []⟩] none := by
  obtain ⟨_, _, gap⟩ := leads.traces
  obtain ⟨_, number⟩ := unnumbered_of_ne (by simp : ([] : List Char).head? ≠ some '[') |>.misses
  obtain ⟨_, label⟩ := (refuses_name (by simp) : Refuses 2 _ []).exists_traces rfl
  obtain ⟨rfl, -⟩ := traces_call.mp number
  obtain ⟨rfl, -⟩ := traces_call.mp label
  exact ⟨_, mem_production, .broken gap (.broken (.absent number) (.stop label))⟩

theorem explorable_of_blanks (leads : Leads ahead []) (enough : ranks.length ≤ room) :
    Explorable (room + 1) ⟨"production", ahead⟩ := by
  refine .of_holds (holds_of_blanks leads) fun other among => ?_
  obtain ⟨body, member, traces⟩ := holds_of_blanks leads
  obtain ⟨_, _, holds⟩ := traces.exists_holds among
  have flat : isFlat other.name = true := by
    simp only [List.mem_cons, List.not_mem_nil, or_false] at among
    rcases among with rfl | rfl | rfl <;> simp <;> decide
  exact (explorable_of_flat holds flat).mono ((of_decide_eq_true flat).trans_le enough)

/-- A text of clauses, and spaces and comments up to its end. -/
def wholeText : Node :=
  .sequence [.zeroOrMore (.call "production"), .call "s-ignorable", .endOfInput]

theorem mem_wholeText : ("grammar", wholeText) ∈ rules := by
  simp [rules, wholeText]

private theorem wholeText_some (traces : Traces wholeText ahead asked (some (parts, rest))) :
    ∃ inner clauses gap last,
      Traces (.zeroOrMore (.call "production")) ahead inner (some (clauses, last)) ∧
      Traces (.call "s-ignorable") last [⟨"s-ignorable", last⟩] (some (gap, [])) ∧
      asked = inner ++ [⟨"s-ignorable", last⟩] ∧ clausesOf parts = clausesOf clauses := by
  obtain ⟨_, _, _, _, _, clauses, ending, rfl, rfl⟩ := traces_sequence_cons_some.mp traces
  obtain ⟨_, _, _, _, _, gap, finish, rfl, rfl⟩ := traces_sequence_cons_some.mp ending
  obtain ⟨_, _, _, _, _, stop, none, rfl, rfl⟩ := traces_sequence_cons_some.mp finish
  obtain ⟨rfl, same⟩ := traces_sequence_nil.mp none
  cases same
  obtain ⟨rfl, -⟩ := traces_ignorable.mp gap
  cases stop
  exact ⟨_, _, _, _, clauses, gap, by simp, by simp [clausesOf_ignorable gap]⟩

theorem traces_wholeText {last : List Char} {clauses gap : List Part}
    (inside : Traces (.zeroOrMore (.call "production")) ahead asked (some (clauses, last)))
    (ending : Traces (.call "s-ignorable") last [⟨"s-ignorable", last⟩] (some (gap, []))) :
    ∃ parts, Traces wholeText ahead (asked ++ [⟨"s-ignorable", last⟩]) (some (parts, [])) ∧
      clausesOf parts = clausesOf clauses :=
  ⟨_, .cons inside (.cons ending (.cons .ends .nil)), by simp [clausesOf_ignorable ending]⟩

/-- A text is read alike behind other spaces and comments. -/
theorem text_behind (leads : Leads ahead next) (leads' : Leads ahead' next)
    (traces : Traces wholeText ahead asked (some (parts, []))) (enough : ranks.length ≤ room) :
    ∃ asked' parts', Traces wholeText ahead' asked' (some (parts', [])) ∧
      clausesOf parts' = clausesOf parts ∧ Follows next (room + 1) asked asked' := by
  obtain ⟨_, _, gapParts, last, star, gap, rfl, same⟩ := wholeText_some traces
  have even : tally last = some 0 := (Leads.of_call gap).tally_eq.symm.trans rfl
  obtain ⟨misses, read⟩ | ⟨_, once, read⟩ |
      ⟨_, behind, _, _, middle, _, once, -, later, rfl, read⟩ := traces_zeroOrMore.mp star
  · cases read
    obtain rfl := leads.unique (.of_call gap)
    obtain ⟨rfl, -⟩ := traces_call.mp misses
    obtain ⟨_, _, gap'⟩ := leads'.traces
    have misses' := holds_of_blanks leads'
    obtain ⟨parts', traces', same'⟩ := traces_wholeText
      (.exhausted (traces_call.mpr ⟨rfl, .inr ⟨_, misses', rfl⟩⟩)) gap'
    refine ⟨_, parts', traces', same'.trans same.symm, ?_⟩
    have lexemes : ∀ spot ∈ [⟨"section-number", []⟩, ⟨"production-name", []⟩],
        Nests [] room spot := by
      simp only [List.forall_mem_cons, List.not_mem_nil, false_imp_iff, implies_true, and_true]
      exact ⟨nests_flat (by simp; decide) enough, nests_flat (by simp; decide) enough⟩
    exact .instead (holds_of_blanks leads) misses' rfl
      (fun _ => ⟨Nat.not_lt_zero _, explorable_of_blanks leads' enough⟩)
      (Follows.blanks leads leads' enough (Follows.refl lexemes))
      (Follows.blanks leads leads' (enough.trans (Nat.le_succ _)) .nil)
  · cases read
    exact absurd rfl (moves_of_production once even)
  · cases read
    have closed : tally ahead ≠ none := by
      rcases exists_tally star even with rfl | ⟨amount, here, -⟩
      · simp [even]
      · simp only [Option.mem_def] at here
        simp [here]
    obtain ⟨shorter, parts', once', same', follows⟩ :=
      production_behind leads leads' once closed enough
    obtain ⟨_, before⟩ := leads'.exists_chars
    have moves : middle ≠ ahead' := by
      rintro rfl
      rw [before, List.length_append] at shorter
      omega
    obtain ⟨all, traces', same''⟩ := traces_wholeText (.again once' moves later) gap
    refine ⟨_, all, traces', by simp [same, same', same''], ?_⟩
    have nests : ∀ spot ∈ behind ++ [⟨"s-ignorable", last⟩], Nests next (room + 1) spot := by
      obtain ⟨_, split⟩ := later.exists_chars
      simp only [List.forall_mem_append, List.mem_singleton, forall_eq]
      refine ⟨fun spot among => ?_, ?_⟩
      · exact .inl ((later.suffix_of_mem among).length_le.trans_lt shorter)
      · exact .inl (lt_of_le_of_lt (by simp [split]) shorter)
    rw [List.append_assoc, List.append_assoc]
    exact follows.append (Follows.refl nests)

/-! ### The first text -/

/-- The clauses of a text are read alike if it goes on, and the clauses that come next follow. -/
theorem text_before (onward : Onward tail next)
    (traces : Traces (.zeroOrMore (.call "production")) ahead asked (some (parts, rest)))
    (leads : Leads rest []) (enough : ranks.length + brackets.length ≤ room) :
    ∃ clauses others, asked = clauses ++ [⟨"production", rest⟩] ∧
      Joins tail (room + 4) clauses others ∧
      ∀ {behind more last}, Traces (.zeroOrMore (.call "production")) (rest ++ '\n' :: tail) behind
          (some (more, last)) →
        Traces (.zeroOrMore (.call "production")) (ahead ++ '\n' :: tail) (others ++ behind)
          (some (parts ++ more, last)) := by
  have even : tally rest = some 0 := leads.tally_eq.symm.trans rfl
  generalize same : Node.zeroOrMore (.call "production") = node at traces
  generalize read : some (parts, rest) = reading at traces
  induction traces generalizing parts rest with
  | exhausted misses =>
      cases same
      cases read
      obtain ⟨rfl, -⟩ := traces_call.mp misses
      exact ⟨[], [], rfl, .nil, fun later => later⟩
  | idle once =>
      cases same
      cases read
      exact absurd rfl (moves_of_production once even)
  | @again _ ahead middle _ _ _ _ _ _ once moves later _ induction =>
      cases same
      cases read
      obtain ⟨clauses, others, rfl, joins, follow⟩ := induction leads even rfl rfl
      have closes := once.tally_eq (rfl : gain (.call "production") = some 2)
      obtain ⟨first, once', joins'⟩ : Carries tail (room + 4) (.call "production") _
          (ahead ++ '\n' :: tail) (some (_, middle ++ '\n' :: tail)) := by
        rcases exists_tally later even with rfl | ⟨amount, here, least⟩
        · exact .production onward once (by rw [closes, even]; rfl) leads enough
        · obtain ⟨rfl, -⟩ := traces_call.mp once
          have above : Above inside ⟨"production", ahead⟩ := by
            refine ⟨by simp, fun needs low => ?_⟩
            cases low
            exact ⟨2 + amount, by rw [closes, here]; rfl, by omega⟩
          refine .of_kept once rfl ?_ ?_ <;> simp only [List.mem_singleton, forall_eq]
          · exact above.kept_of_inside
          · exact .inl above
      refine ⟨_, first ++ others, (List.append_assoc ..).symm, joins'.append joins, fun last => ?_⟩
      rw [List.append_assoc, List.append_assoc]
      exact .again once' (by simpa using moves) (follow last)
  | _ => cases same

/-! ### Both texts -/

private theorem Leads.newLine (leads : Leads tail next) : Leads ('\n' :: tail) next := by
  have blank : Takes 2 ignored ['\n'] tail anything := takes_blank (by decide)
  obtain ⟨_, _, once⟩ := blank.exists_traces rfl
  obtain ⟨_, _, later⟩ := leads
  exact ⟨_, _, .again once (by simp) later⟩

/-- What comes next in a text of clauses is the head of its first one, or nothing. -/
theorem exists_onward (traces : Traces wholeText tail asked (some (parts, []))) :
    ∃ next, Leads tail next ∧ Onward tail next := by
  obtain ⟨_, _, _, last, star, gap, -, -⟩ := wholeText_some traces
  have even : tally last = some 0 := (Leads.of_call gap).tally_eq.symm.trans rfl
  obtain ⟨-, read⟩ | ⟨_, once, read⟩ | ⟨_, _, _, _, _, _, once, -, -, -, -⟩ :=
    traces_zeroOrMore.mp star
  · cases read
    have leads : Leads tail [] := .of_call gap
    exact ⟨[], leads, leads.newLine, .inl rfl⟩
  · cases read
    exact absurd rfl (moves_of_production once even)
  · obtain ⟨-, ⟨_, _, _, _, holds, -, -⟩ | ⟨_, _, none⟩⟩ := traces_call.mp once
    · have inside := (holds_iff mem_production).mp holds
      obtain ⟨_, _, _, _, _, head, -, -, -⟩ := traces_sequence_append_some inside
      obtain ⟨_, _, _, next, _, blank, head, -, -⟩ := traces_sequence_cons_some.mp
        (head : Traces (.sequence (.call "s-ignorable" :: opening.tail)) _ _ _)
      obtain ⟨chars, split⟩ := head.exists_chars
      have leads : Leads tail next := .of_call blank
      exact ⟨next, leads, leads.newLine, .inr ⟨_, _, .matched mem_head split head⟩⟩
    · cases none

/-- A text that goes on with another one in a new line is read as the clauses of both, and what can
be read of each with some room can be read together with as much room. -/
theorem text_append {left right : List Char} {first second : List Spot}
    {parts parts' : List Part} {known known' : Set Spot}
    (reads : Traces wholeText left first (some (parts, [])))
    (explores : Explores (room + 4) ∅ first known)
    (reads' : Traces wholeText right second (some (parts', [])))
    (explores' : Explores (room + 4) ∅ second known')
    (enough : ranks.length + brackets.length ≤ room) :
    ∃ asked all known, Traces wholeText (left ++ '\n' :: right) asked (some (all, [])) ∧
      Explores (room + 4) ∅ asked known ∧ clausesOf all = clausesOf parts ++ clausesOf parts' := by
  obtain ⟨next, leads, onward⟩ := exists_onward reads'
  obtain ⟨_, _, _, last, star, gap, rfl, same⟩ := wholeText_some reads
  have ending : Leads last [] := .of_call gap
  obtain ⟨clauses, others, rfl, joins, follow⟩ := text_before onward star ending enough
  -- Behind the first text its last spaces and comments go on with those of the second one.
  have leads' : Leads (last ++ '\n' :: right) next := by
    have even : tally last = some 0 := ending.tally_eq.symm.trans rfl
    obtain ⟨_, _, run⟩ := ending
    exact (run.extend_ignored onward.leads (by simp [even])).2 rfl
  have flat : ranks.length ≤ room + 3 := by omega
  obtain ⟨_, all, reads'', same', follows⟩ := text_behind leads leads' reads' flat
  obtain ⟨_, _, _, last', star', gap', rfl, same''⟩ := wholeText_some reads''
  obtain ⟨whole, traces, wholeSame⟩ := traces_wholeText (follow star') gap'
  rw [List.append_assoc, explores_append] at explores
  obtain ⟨_, explores, -⟩ := explores
  obtain ⟨middle, explored, -⟩ := joins.explores (transfers_extend right) explores refuted_empty
    closed_empty refuted_empty fun _ among => among.elim
  obtain ⟨known, explored', -⟩ := follows.explores (transfers_behind next) explores' refuted_empty
    (explored.complete closed_empty).closed (explored.refuted refuted_empty)
    fun _ among => among.elim
  refine ⟨_, whole, known, traces, ?_, ?_⟩
  · rw [List.append_assoc]
    exact explores_append.mpr ⟨middle, explored, explored'⟩
  · rw [wholeSame, clausesOf_append, ← same, ← same'', same']

/-! ### Readings of whole texts -/

variable {text : List Char} {tree : Tree}

/-- The run over a whole text. -/
def wholeRun (limit : ℕ) (text : List Char) : Reply :=
  (remembering limit).invoke limit outside "grammar" [] .empty (.start text) .fresh

variable {limit : ℕ}

/-- The run over a whole text explores what is asked for, or exceeds the limit. -/
theorem goes_wholeRun (limit : ℕ)
    (traces : Traces (.call "grammar") text [⟨"grammar", text⟩] reading) :
    Goes text limit limit ∅ [⟨"grammar", text⟩] reading (wholeRun limit text) :=
  callsGo_invoke text limit outside limit "grammar" (.start text) _ ∅ .fresh
    (Cursor.whole_start text) traces refuted_empty (remembers_fresh _)

private theorem parseAll_of_matched {stop : Cursor}
    (run : (wholeRun limit text).1 = .matched [tree] stop) (ends : stop.rest = []) :
    ((remembering limit).parseAll "grammar" text).1 = .ok tree := by
  unfold wholeRun at run
  simp [Setting.parseAll, limit_remembering, run, ends]

/-- A text that is read as a whole is explored. -/
theorem exists_explores_of_parseAll
    (parsed : ((remembering limit).parseAll "grammar" text).1 = .ok tree) :
    ∃ asked known, Traces wholeText text asked (some ((Part.ofTree text tree).content, [])) ∧
      Explores limit ∅ [⟨"grammar", text⟩] known := by
  obtain ⟨stop, whole, ends, derives⟩ := Setting.derives_of_parseAll parsed
  have atEnd : stop.rest = [] := by
    apply eq_nil_of_byteLength_eq_zero
    have split := congrArg byteLength whole
    rw [Cursor.byteLength_whole] at split
    omega
  obtain ⟨_, reading, traces, shown⟩ : ∃ asked reading,
      Traces (.call "grammar") text asked reading ∧ Shows text reading (.matched [tree] stop) := by
    have traced := traces_of_derives derives rfl nofun rfl
    rwa [Cursor.whole_start] at traced
  obtain ⟨rfl, found⟩ := traces_call.mp traces
  have explores : ∃ known, Explores limit ∅ [⟨"grammar", text⟩] known := by
    rcases goes_wholeRun limit traces with ⟨known, explores, -, -⟩ | ⟨-, exceeded⟩
    · exact ⟨known, explores⟩
    · unfold wholeRun at exceeded
      simp [Setting.parseAll, limit_remembering, exceeded] at parsed
  obtain ⟨known, explores⟩ := explores
  cases shown with
  | matched _ made left =>
  obtain ⟨_, parts, _, chars, holds, -, same⟩ | ⟨_, _, none⟩ := found
  · have inside := (holds_iff mem_wholeText).mp holds
    simp only [made, left, atEnd, List.map_singleton, Option.some.injEq, Prod.mk.injEq,
      List.cons.injEq, and_true] at same
    obtain ⟨same, rfl⟩ := same
    rw [same]
    exact ⟨_, known, inside, explores⟩
  · cases none

/-- A text that is explored is read as a whole. -/
theorem exists_parseAll_of_explores {asked : List Spot} {known : Set Spot} {parts : List Part}
    (traces : Traces wholeText text asked (some (parts, [])))
    (explores : Explores limit ∅ [⟨"grammar", text⟩] known) :
    ∃ tree, ((remembering limit).parseAll "grammar" text).1 = .ok tree ∧
      (Part.ofTree text tree).content = parts := by
  have whole : Traces (.call "grammar") text [⟨"grammar", text⟩]
    (some ([⟨"grammar", text, parts⟩], [])) := .matched mem_wholeText (by simp) traces
  rcases goes_wholeRun limit whole with ⟨_, -, -, shown⟩ | ⟨stuck, -⟩
  · generalize run : (wholeRun limit text).1 = outcome at shown
    cases shown with
    | matched _ made left =>
        obtain ⟨tree, rfl, same⟩ := List.map_eq_singleton_iff.mp made.symm
        exact ⟨tree, parseAll_of_matched run left.symm, by rw [same]⟩
  · exact absurd explores (stuck _)

/-- What a run explores of a whole text it explores with room for one call less. -/
theorem explores_wholeText {asked : List Spot} {known : Set Spot}
    (traces : Traces wholeText text asked reading)
    (explores : Explores (room + 1) ∅ [⟨"grammar", text⟩] known) :
    ∃ inner, Explores room ∅ asked inner := by
  cases explores with
  | known among => exact among.elim
  | enter _ holds inside =>
      obtain ⟨rfl, -⟩ := holds.unique ⟨_, mem_wholeText, traces⟩
      exact ⟨_, inside⟩

/-- Two texts that are read under a limit are read under the same limit where the second one follows
in a new line, with the clauses of both. -/
theorem exists_parseAll_append {left right : List Char} {first second : Tree}
    (enough : ranks.length + brackets.length + 5 ≤ limit)
    (parsed : ((remembering limit).parseAll "grammar" left).1 = .ok first)
    (parsed' : ((remembering limit).parseAll "grammar" right).1 = .ok second) :
    ∃ tree, ((remembering limit).parseAll "grammar" (left ++ '\n' :: right)).1 = .ok tree ∧
      clausesOf (Part.ofTree (left ++ '\n' :: right) tree).content =
        clausesOf (Part.ofTree left first).content ++
          clausesOf (Part.ofTree right second).content := by
  obtain ⟨room, rfl⟩ := Nat.exists_eq_add_of_le' (le_trans (Nat.le_add_left 5 _) enough)
  obtain ⟨_, _, traces, explores⟩ := exists_explores_of_parseAll parsed
  obtain ⟨_, _, traces', explores'⟩ := exists_explores_of_parseAll parsed'
  obtain ⟨_, inner⟩ := explores_wholeText traces explores
  obtain ⟨_, inner'⟩ := explores_wholeText traces' explores'
  obtain ⟨asked, all, known, together, explored, same⟩ :=
    text_append traces inner traces' inner' (by omega)
  have enters : Explores (room + 5) ∅ [⟨"grammar", left ++ '\n' :: right⟩] _ :=
    .enter id ⟨_, mem_wholeText, together⟩ explored .nil
  obtain ⟨tree, parsed, whole⟩ := exists_parseAll_of_explores together enters
  exact ⟨tree, parsed, by rw [whole, same]⟩

end Dialect

end Bnf

end ParametricGrammar
