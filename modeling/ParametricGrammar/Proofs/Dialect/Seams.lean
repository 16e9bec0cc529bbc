import ParametricGrammar.Proofs.Dialect.Ends
import ParametricGrammar.Proofs.Dialect.Extensions
/-!
# The seam of two texts

Where another text follows in a new line, what is asked for inside of brackets stays the same. Only
at the very end of the text do the spaces and comments go on into what follows, up to the head of
its first clause.
-/

namespace ParametricGrammar

namespace Bnf

namespace Dialect

variable {name : String} {node body : Node} {ahead rest tail : List Char} {room : ℕ}
  {asked : List Spot} {parts : List Part} {reading : Reading} {spot other : Spot}

/-! ### What is tracked -/

/-- The productions that hold what is quoted. -/
def quotedChars : List String := ["single-quoted-char", "double-quoted-char"]

/-- What the productions need to be asked for inside of brackets. -/
def inside (name : String) : Option ℤ :=
  if name = "production" then some 3
  else if name ∈ quotedChars then none
  else some 1

theorem sufficient_inside : Sufficient inside := by
  intro rule member other
  have holds := check_of_mem (fun name body =>
    name = "grammar" || staysAbove inside (inside name) body) rfl member
  simpa [other] using holds

/-- Where the balance is even, only what quotes hold is inside of anything. -/
theorem not_inside (even : tally spot.ahead = some 0) (bare : spot.name ∉ quotedChars) :
    ¬ Above inside spot := by
  rintro ⟨-, above⟩
  have least : ∃ amount ∈ inside spot.name, 0 < amount := by
    simp only [inside, if_neg bare]
    split <;> simp
  obtain ⟨amount, needs, positive⟩ := least
  obtain ⟨_, here, enough⟩ := above amount needs
  rw [even] at here
  cases here
  omega

/-- Inside of brackets the end of the text makes no difference. -/
theorem Above.kept_of_inside (above : Above inside spot) : spot.Kept := by
  refine Above.kept ⟨above.1, above.2.of_covers ?_⟩
  simp only [brink, inside, quotedChars]
  split_ifs <;> grind [covers]

/-- The productions that brackets make recursive, those last that ask for the others. -/
def brackets : List String := ["lookaround", "group", "atom", "quantified"]

/-- A part of a body, outside of brackets. -/
structure Outer (spot : Spot) : Prop where
  named : spot.name ∈ brackets
  even : tally spot.ahead = some 0
  more : spot.ahead ≠ []

/-- What has to be known in the text that goes on if it is known without. -/
def Tracked (spot : Spot) : Prop := Above inside spot ∨ Outer spot

/-- What a run with some room has to enter again at most nests as deeply as there is room for. -/
def Fits (room : ℕ) (spot : Spot) : Prop :=
  Above inside spot ∨ (Outer spot ∧ ranks.length + brackets.idxOf spot.name < room) ∨
    (isFlat spot.name = true ∧ rank spot.name < room)

/-- What is asked for one after the other at one place. -/
theorem Traces.ahead_of_first (names : List String)
    (traces : Traces (.first (names.map .call)) ahead asked reading) (among : spot ∈ asked) :
    spot.ahead = ahead ∧ spot.name ∈ names := by
  induction names generalizing asked with
  | nil =>
      obtain ⟨rfl, -⟩ := traces_first_nil.mp traces
      cases among
  | cons name names induction =>
      obtain ⟨_, -, here⟩ | ⟨_, _, here, later, rfl⟩ := traces_first_cons.mp traces
      · obtain ⟨rfl, -⟩ := traces_call.mp here
        obtain rfl := List.mem_singleton.mp among
        exact ⟨rfl, List.mem_cons_self⟩
      · obtain ⟨rfl, -⟩ := traces_call.mp here
        rcases List.mem_append.mp among with among | among
        · obtain rfl := List.mem_singleton.mp among
          exact ⟨rfl, List.mem_cons_self⟩
        · exact (induction later among).imp_right (List.mem_cons_of_mem _)

theorem Outer.above (outer : Outer spot) : Above brink spot := by
  obtain ⟨named, even, -⟩ := outer
  have needs : spot.name ≠ "grammar" ∧ brink spot.name = some 0 := by
    simp only [brackets, List.mem_cons, List.not_mem_nil, or_false] at named
    rcases named with same | same | same | same <;> rw [same] <;> exact ⟨by decide, rfl⟩
  refine ⟨needs.1, ?_⟩
  rw [needs.2]
  rintro least ⟨⟩
  exact ⟨0, even, le_rfl⟩

theorem fits_flat (flat : isFlat spot.name = true) (enough : ranks.length ≤ room) :
    Fits room spot := by
  refine .inr (.inr ⟨flat, ?_⟩)
  exact (of_decide_eq_true flat).trans_le enough

/-- What the productions with brackets need inside of those, apart from those that nest little. -/
def hull (name : String) : Option ℤ := if isFlat name then none else inside name

theorem Above.flat_or_inside (above : Above hull spot) :
    isFlat spot.name = true ∨ Above inside spot := by
  by_cases flat : isFlat spot.name = true
  · exact .inl flat
  · refine .inr ⟨above.1, ?_⟩
    have same : hull spot.name = inside spot.name := if_neg flat
    exact same ▸ above.2

private theorem fits_of_above (above : Above hull spot) (enough : ranks.length ≤ room) :
    Fits room spot :=
  above.flat_or_inside.elim (fun flat => fits_flat flat enough) .inl

/-- What the parts of a body ask for fits with a little less room. -/
theorem Outer.fits_of_asks (outer : Outer spot) (asks : spot.Asks other)
    (enough : ranks.length + brackets.idxOf spot.name < room + 1) : Fits room other := by
  obtain ⟨named, even, more⟩ := outer
  obtain ⟨name, ahead⟩ := spot
  obtain ⟨asked, reading, ⟨body, member, traces⟩, among⟩ := asks
  have floor : AtLeast (some 0) ahead := by
    rintro least ⟨⟩
    exact ⟨0, even, le_rfl⟩
  dsimp only at enough
  simp only [brackets, List.mem_cons, List.not_mem_nil, or_false] at named
  rcases named with rfl | rfl | rfl | rfl
  · obtain rfl := body_unique member (by simp [rules]; rfl)
    exact fits_of_above (traces.above rfl floor other among) (by omega)
  · obtain rfl := body_unique member (by simp [rules]; rfl)
    exact fits_of_above (traces.above rfl floor other among) (by omega)
  · obtain rfl := body_unique member (by simp [rules]; rfl)
    have choice : Traces (.first (["lookaround", "special", "group", "code-point-range", "hex-char",
      "quoted-string", "any-char", "reference"].map .call)) ahead asked reading := traces
    obtain ⟨same, among⟩ := choice.ahead_of_first _ among
    by_cases flat : isFlat other.name = true
    · exact fits_flat flat (by omega)
    · have deep : other.name = "lookaround" ∨ other.name = "group" := by
        simp only [List.mem_cons, List.not_mem_nil, or_false] at among
        rcases among with named | named | named | named | named | named | named | named <;>
          rw [named] at flat ⊢ <;> revert flat <;> decide
      have lower : brackets.idxOf other.name < brackets.idxOf "atom" := by
        rcases deep with named | named <;> rw [named] <;> decide
      refine .inr (.inl ⟨⟨?_, same ▸ even, same ▸ more⟩, ?_⟩)
      · rcases deep with named | named <;> rw [named] <;> decide
      · omega
  · obtain rfl := body_unique member (by simp [rules]; rfl)
    have atom : Fits room ⟨"atom", ahead⟩ := by
      have lower : brackets.idxOf "atom" < brackets.idxOf "quantified" := by decide
      exact .inr (.inl ⟨⟨(by decide : "atom" ∈ brackets), even, more⟩,
        Nat.lt_of_lt_of_le (Nat.add_lt_add_left lower _) (Nat.le_of_lt_succ enough)⟩)
    obtain ⟨first, -⟩ | ⟨_, _, _, _, _, first, later, rfl, -⟩ := traces_sequence_cons.mp traces
    · obtain ⟨rfl, -⟩ := traces_call.mp first
      exact List.mem_singleton.mp among ▸ atom
    · obtain ⟨rfl, -⟩ := traces_call.mp first
      rcases List.mem_append.mp among with among | among
      · exact List.mem_singleton.mp among ▸ atom
      · have named : other.name = "quantifier" := List.mem_singleton.mp (later.mem_references among)
        exact fits_flat (by rw [named]; decide) (by omega)

/-- What is asked for inside of brackets and in flat productions is the same in a text that goes on,
also with what is known there. -/
theorem transfers_extend (tail : List Char) :
    Transfers (Spot.extend tail) Spot.Kept Tracked Fits where
  kept_of_asks kept asks := kept.of_asks asks
  holds kept holds := ⟨_, kept.extend holds, by simp [Reading.extend]⟩
  fits_of_asks := by
    rintro room spot other (above | ⟨outer, enough⟩ | ⟨flat, enough⟩) asks
    · exact .inl (above.of_asks sufficient_inside asks)
    · exact outer.fits_of_asks asks enough
    · obtain ⟨asked, reading, ⟨body, member, traces⟩, among⟩ := asks
      have lower := rank_lt_of_mem member flat (traces.mem_references among)
      refine .inr (.inr ⟨?_, by omega⟩)
      simp only [isFlat, decide_eq_true_eq] at flat ⊢
      omega
  enters := by
    rintro room spot (above | ⟨outer, -⟩ | ⟨flat, enough⟩) kept ⟨asked, holds⟩
    · exact .inl (.inl above)
    · exact .inl (.inr outer)
    · have flat' : isFlat (spot.extend tail).name = true := flat
      exact .inr ((explorable_of_flat (kept.extend holds) flat').mono enough)

/-! ### Reading on -/

/-- Spots in the text that goes on take the place of spots in the text that ends. -/
abbrev Joins (tail : List Char) : ℕ → List Spot → List Spot → Prop :=
  Mirrors (Spot.extend tail) Spot.Kept Tracked Fits

/-- In the text that goes on, an expression asks for what takes the place of some spots and reads
something. -/
abbrev Carries (tail : List Char) :
    ℕ → Node → List Spot → List Char → Reading → Prop :=
  Replays (Spot.extend tail) Spot.Kept Tracked Fits

/-- What does not notice the end of the text asks for the same. -/
theorem Carries.of_kept (traces : Traces node ahead asked reading) (inline : isInline node = true)
    (kept : ∀ spot ∈ asked, spot.Kept) (fits : ∀ spot ∈ asked, Fits room spot) :
    Carries tail room node asked (ahead ++ '\n' :: tail) (Reading.extend tail reading) := by
  refine ⟨_, traces.extend inline kept, ?_⟩
  clear traces
  induction asked with
  | nil => exact .nil
  | cons spot asked induction =>
      rw [List.forall_mem_cons] at kept fits
      exact .image kept.1 fits.1 (induction kept.2 fits.2)

/-! ### Spaces and comments -/

/-- Behind spaces and comments comes the rest of a text. -/
def Leads (ahead rest : List Char) : Prop :=
  ∃ asked parts, Traces (.zeroOrMore ignored) ahead asked (some (parts, rest))

theorem Leads.unique {rest' : List Char} (leads : Leads ahead rest) (leads' : Leads ahead rest') :
    rest = rest' := by
  obtain ⟨_, _, traces⟩ := leads
  obtain ⟨_, _, traces'⟩ := leads'
  cases (traces.unique traces').2
  rfl

theorem mem_ignorable : ("s-ignorable", .zeroOrMore ignored) ∈ rules := by
  simp [rules, ignored]

theorem traces_ignorable : Traces (.call "s-ignorable") ahead asked reading ↔
    asked = [⟨"s-ignorable", ahead⟩] ∧ ∃ inner chars parts rest, ahead = chars ++ rest ∧
      Traces (.zeroOrMore ignored) ahead inner (some (parts, rest)) ∧
        reading = some ([⟨"s-ignorable", chars, parts⟩], rest) := by
  rw [traces_call]
  constructor
  · rintro ⟨rfl, ⟨_, _, _, _, holds, split, rfl⟩ | ⟨_, holds, -⟩⟩
    · exact ⟨rfl, _, _, _, _, split, (holds_iff mem_ignorable).mp holds, rfl⟩
    · exact absurd rfl ((holds_iff mem_ignorable).mp holds).zeroOrMore_ne_none
  · rintro ⟨rfl, _, _, _, _, split, traces, rfl⟩
    exact ⟨rfl, .inl ⟨_, _, _, _, (holds_iff mem_ignorable).mpr traces, split, rfl⟩⟩

theorem Leads.traces (leads : Leads ahead rest) : ∃ chars parts,
    Traces (.call "s-ignorable") ahead [⟨"s-ignorable", ahead⟩]
      (some ([⟨"s-ignorable", chars, parts⟩], rest)) := by
  obtain ⟨_, parts, traces⟩ := leads
  obtain ⟨chars, split⟩ := traces.exists_chars
  exact ⟨chars, parts, traces_ignorable.mpr ⟨rfl, _, _, _, _, split, traces, rfl⟩⟩

theorem Leads.exists_chars (leads : Leads ahead rest) : ∃ chars, ahead = chars ++ rest := by
  obtain ⟨_, _, traces⟩ := leads
  exact traces.exists_chars

theorem Leads.of_call
    (traces : Traces (.call "s-ignorable") ahead asked (some (parts, rest))) :
    Leads ahead rest := by
  obtain ⟨-, _, _, _, _, -, run, same⟩ := traces_ignorable.mp traces
  cases same
  exact ⟨_, _, run⟩

/-- The productions that make up spaces and comments. -/
def blanks : List String := ["s-space", "b-break", "comment", "line-comment", "block-comment"]

private theorem Spot.asks_of_blank (blank : spot.name ∈ blanks) (asks : spot.Asks other) :
    other.ahead = spot.ahead ∧ other.name ∈ blanks := by
  obtain ⟨asked, reading, ⟨body, member, traces⟩, among⟩ := asks
  obtain ⟨name, ahead⟩ := spot
  by_cases outer : name = "comment"
  · subst outer
    obtain rfl := body_unique member (by simp [rules]; rfl)
    obtain ⟨same, named⟩ :=
      Traces.ahead_of_first ["line-comment", "block-comment"] traces among
    exact ⟨same, List.mem_of_mem_drop (i := 3) named⟩
  · have leaf : body.references = [] := by
      simpa [blank, outer] using check_of_mem (fun name body =>
        name ∉ blanks || name = "comment" || body.references = []) rfl member
    have mentioned := traces.mem_references among
    rw [leaf] at mentioned
    cases mentioned

/-- A space or a comment is all at one place. -/
theorem Spot.reaches_of_blank (blank : spot.name ∈ blanks) (reaches : spot.Reaches other) :
    other.ahead = spot.ahead ∧ other.name ∈ blanks := by
  induction reaches with
  | refl => exact ⟨rfl, blank⟩
  | tail _ asks induction =>
      obtain ⟨same, blank⟩ := Spot.asks_of_blank induction.2 asks
      exact ⟨same.trans induction.1, blank⟩

private theorem Traces.of_ignored (traces : Traces ignored ahead asked reading)
    (among : spot ∈ asked) :
    spot.ahead = ahead ∧ spot.name ∈ blanks := by
  obtain ⟨same, named⟩ :=
    Traces.ahead_of_first ["s-space", "b-break", "comment"] traces among
  exact ⟨same, List.mem_of_mem_take (i := 3) named⟩

private theorem gain_ignored : gain ignored = some 0 := rfl

private theorem Traces.tally_ignored
    (traces : Traces ignored ahead asked (some (parts, rest))) : tally rest = tally ahead := by
  simpa using (traces.tally_eq gain_ignored).symm

theorem Leads.tally_eq (leads : Leads ahead rest) : tally rest = tally ahead := by
  obtain ⟨_, _, traces⟩ := leads
  have gains : gain (.zeroOrMore ignored) = some 0 := rfl
  simpa using (traces.tally_eq gains).symm

/-- What is asked for in a row of spaces and comments has the balance of what lies ahead of it, and
is not behind it. -/
theorem Traces.of_blanks (traces : Traces (.zeroOrMore ignored) ahead asked (some (parts, rest)))
    (among : spot ∈ asked) :
    spot.name ∈ blanks ∧ tally spot.ahead = tally ahead ∧ rest.length ≤ spot.ahead.length := by
  generalize same : Node.zeroOrMore ignored = node at traces
  generalize read : some (parts, rest) = reading at traces
  induction traces generalizing parts rest with
  | exhausted misses =>
      cases same
      cases read
      obtain ⟨same, blank⟩ := misses.of_ignored among
      exact ⟨blank, by rw [same], by rw [same]⟩
  | idle once =>
      cases same
      cases read
      obtain ⟨same, blank⟩ := once.of_ignored among
      exact ⟨blank, by rw [same], by rw [same]⟩
  | again head _ tail _ induction =>
      cases same
      cases read
      obtain ⟨_, splitLeft⟩ := head.exists_chars
      obtain ⟨_, splitRight⟩ := tail.exists_chars
      rcases List.mem_append.mp among with among | among
      · obtain ⟨same, blank⟩ := head.of_ignored among
        refine ⟨blank, by rw [same], ?_⟩
        rw [same, splitLeft, splitRight, List.length_append, List.length_append]
        omega
      · obtain ⟨blank, tallies, longer⟩ := induction among rfl rfl
        exact ⟨blank, tallies.trans head.tally_ignored, longer⟩
  | _ => cases same

theorem Leads.of_reaches (leads : Leads ahead rest)
    (reaches : (⟨"s-ignorable", ahead⟩ : Spot).Reaches other) :
    other.name ∈ "s-ignorable" :: blanks ∧ tally other.ahead = tally ahead ∧
      rest.length ≤ other.ahead.length := by
  obtain ⟨asked, parts, traces⟩ := leads
  rcases reaches.cases_head with rfl | ⟨next, asks, reaches⟩
  · obtain ⟨chars, split⟩ := traces.exists_chars
    exact ⟨List.mem_cons_self, rfl, by simp [split]⟩
  · have among : next ∈ asked := ((holds_iff mem_ignorable).mpr traces).mem_of_asks asks
    obtain ⟨blank, tallies, longer⟩ := traces.of_blanks among
    obtain ⟨same, blank⟩ := Spot.reaches_of_blank blank reaches
    exact ⟨.tail _ blank, by rw [same, tallies], by rw [same]; exact longer⟩

/-- Where something lies ahead and no comment is open, spaces and comments do not notice the end. -/
theorem Traces.kept_of_ignored (traces : Traces ignored ahead asked reading) (more : ahead ≠ [])
    (closed : tally ahead ≠ none) : ∀ spot ∈ asked, spot.Kept := by
  intro spot among below reaches
  obtain ⟨same, blank⟩ := traces.of_ignored among
  obtain ⟨same', blank⟩ := Spot.reaches_of_blank blank reaches
  obtain ⟨name, place⟩ := below
  obtain rfl : place = ahead := same'.trans same
  refine ⟨?_, fun _ => more, ?_⟩
  · rintro rfl
    exact absurd (show "grammar" ∈ blanks from blank) (by decide)
  · rintro rfl ⟨_, holds⟩ ⟨inner, rfl⟩
    exact closed (tally_of_unclosed holds)

private theorem ignored_ne_nil (traces : Traces ignored ahead asked (some (parts, rest))) :
    ahead ≠ [] := by
  rintro rfl
  have none := (refuses_ignored (by simp) : Refuses 2 ignored []).reads rfl traces
  cases none

/-- Spaces and comments that do not end the text are read alike if it goes on. Those that do end it
go on, too. -/
theorem Traces.extend_ignored {next : List Char} (onward : Leads ('\n' :: tail) next)
    (traces : Traces (.zeroOrMore ignored) ahead asked (some (parts, rest)))
    (closed : tally ahead ≠ none) :
    (rest ≠ [] → ∃ others, Traces (.zeroOrMore ignored) (ahead ++ '\n' :: tail) others
      (some (parts, rest ++ '\n' :: tail))) ∧
    (rest = [] → Leads (ahead ++ '\n' :: tail) next) := by
  generalize same : Node.zeroOrMore ignored = node at traces
  generalize read : some (parts, rest) = reading at traces
  have step : ∀ {ahead : List Char} {asked : List Spot} {reading : Reading},
      Traces ignored ahead asked reading → ahead ≠ [] → tally ahead ≠ none →
      Traces ignored (ahead ++ '\n' :: tail) (asked.map (Spot.extend tail))
        (Reading.extend tail reading) :=
    fun traces more closed => traces.extend rfl (traces.kept_of_ignored more closed)
  induction traces generalizing parts rest with
  | exhausted misses =>
      cases same
      cases read
      refine ⟨fun more => ⟨_, .exhausted (step misses more closed)⟩, ?_⟩
      rintro rfl
      exact onward
  | idle once =>
      cases same
      cases read
      have more := ignored_ne_nil once
      exact ⟨fun _ => ⟨_, .idle (step once more closed)⟩, fun none => absurd none more⟩
  | again head moves _ _ induction =>
      cases same
      cases read
      have here := step head (ignored_ne_nil head) closed
      have later := induction (head.tally_ignored ▸ closed) rfl rfl
      have moves' : _ ++ '\n' :: tail ≠ _ ++ '\n' :: tail := fun same =>
        moves (List.append_cancel_right same)
      refine ⟨fun more => ?_, fun none => ?_⟩
      · obtain ⟨_, there⟩ := later.1 more
        exact ⟨_, .again here moves' there⟩
      · obtain ⟨_, _, there⟩ := later.2 none
        exact ⟨_, _, .again here moves' there⟩
  | _ => cases same

end Dialect

end Bnf

end ParametricGrammar
