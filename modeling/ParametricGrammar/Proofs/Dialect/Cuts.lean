import ParametricGrammar.Proofs.Dialect.Edges
/-!
# Texts that are cut off

Where a text is cut off behind its clauses, what is asked for inside of brackets stays the same, and
the lexemes between the brackets nest little. So a run over the shorter text gets as far as the one
over the text with its tail.
-/

namespace ParametricGrammar

namespace Bnf

namespace Dialect

variable {name text : String} {node body child : Node} {nodes : List Node}
  {ahead middle rest tail chars : List Char} {room : ℕ} {asked before behind others : List Spot}
  {parts : List Part} {reading : Reading} {spot other : Spot} {reached : Option (List Char)}

/-! ### What is noted -/

/-- What has to be known in the text that is cut off if it is known with the tail: productions
inside of brackets, and those between them that brackets make recursive. -/
def Noted (spot : Spot) : Prop :=
  spot.ahead ≠ [] ∧
    (Above inside spot ∨ (spot.name ∈ enclosing ∧ tally spot.ahead = some 0))

/-- What a run with some room has to enter again at most nests as deeply as there is room for. -/
def Roomy (room : ℕ) (spot : Spot) : Prop :=
  Above inside spot ∨
    (spot.name ∈ enclosing ∧ tally spot.ahead = some 0 ∧ ranks.length < room) ∨
      (isFlat spot.name = true ∧ rank spot.name < room)

theorem roomy_flat (flat : isFlat spot.name = true) (enough : ranks.length ≤ room) :
    Roomy room spot :=
  .inr (.inr ⟨flat, (of_decide_eq_true flat).trans_le enough⟩)

private theorem Roomy.of_asks (roomy : Roomy (room + 1) spot) (asks : spot.Asks other) :
    Roomy room other := by
  rcases roomy with above | ⟨named, even, enough⟩ | ⟨flat, enough⟩
  · exact .inl (above.of_asks sufficient_inside asks)
  · obtain ⟨asked, reading, ⟨body, member, traces⟩, among⟩ := asks
    have stays := check_of_mem (fun name body =>
      name ∉ enclosing || staysAbove hull (some 0) body) rfl member
    simp only [named, not_true_eq_false, decide_false, Bool.false_or] at stays
    have floor : AtLeast (some 0) spot.ahead := by
      rintro least ⟨⟩
      exact ⟨0, even, le_rfl⟩
    exact (traces.above stays floor other among).flat_or_inside.elim
      (fun flat => roomy_flat flat (Nat.le_of_lt_succ enough)) .inl
  · obtain ⟨asked, reading, ⟨body, member, traces⟩, among⟩ := asks
    have lower := rank_lt_of_mem member flat (traces.mem_references among)
    refine .inr (.inr ⟨?_, by omega⟩)
    simp only [isFlat, decide_eq_true_eq] at flat ⊢
    omega

/-! ### Spots with a tail -/

/-- The spot in the text without the tail. -/
def Spot.cut (tail : List Char) (spot : Spot) : Spot :=
  ⟨spot.name, spot.ahead.take (spot.ahead.length - tail.length)⟩

@[simp] theorem Spot.cut_append (tail : List Char) (spot : Spot) :
    (spot.append tail).cut tail = spot := by
  simp [Spot.cut, Spot.append]

/-- A class of spots in the text that is cut off, with the tail behind them. -/
def Tailed (tail : List Char) (kind : Spot → Prop) (spot : Spot) : Prop :=
  ∃ short, kind short ∧ spot = short.append tail

private theorem Spot.Sealed.exists_holds (sealed : spot.Sealed tail)
    (holds : (spot.append tail).Holds asked reading) :
    ∃ inner read, spot.Holds inner read ∧ asked = inner.map (Spot.append tail) ∧
      reading = Reading.append tail read := by
  obtain ⟨body, member, -⟩ := id holds
  obtain ⟨inner, read, short⟩ := Spot.settled spot member
  obtain ⟨rfl, rfl⟩ := holds.unique (sealed.append short)
  exact ⟨inner, read, short, rfl, rfl⟩

private theorem Spot.Sealed.exists_asks (sealed : spot.Sealed tail)
    (asks : (spot.append tail).Asks other) :
    ∃ short, spot.Asks short ∧ other = short.append tail := by
  obtain ⟨asked, reading, holds, among⟩ := asks
  obtain ⟨inner, read, short, rfl, -⟩ := sealed.exists_holds holds
  obtain ⟨found, member, rfl⟩ := List.mem_map.mp among
  exact ⟨found, ⟨_, _, short, member⟩, rfl⟩

/-- What makes no difference to the tail is the same in the text that is cut off, also with what is
known there. -/
theorem transfers_cut (tail : List Char) :
    Transfers (Spot.cut tail) (Tailed tail (Spot.Sealed tail)) (Tailed tail Noted)
      fun room => Tailed tail fun spot => spot.Sealed tail ∧ Roomy room spot where
  kept_of_asks := by
    rintro _ other ⟨spot, sealed, rfl⟩ asks
    obtain ⟨short, below, rfl⟩ := sealed.exists_asks asks
    exact ⟨short, sealed.of_asks below, rfl⟩
  holds := by
    rintro _ asked reading ⟨spot, sealed, rfl⟩ holds
    obtain ⟨inner, read, short, rfl, rfl⟩ := sealed.exists_holds holds
    refine ⟨read, ?_, by simp [Reading.append]⟩
    simpa [Function.comp_def] using short
  fits_of_asks := by
    rintro room _ other ⟨spot, ⟨sealed, roomy⟩, rfl⟩ asks
    obtain ⟨short, below, rfl⟩ := sealed.exists_asks asks
    exact ⟨short, ⟨sealed.of_asks below, roomy.of_asks below⟩, rfl⟩
  enters := by
    rintro room _ ⟨spot, ⟨sealed, roomy⟩, rfl⟩ - ⟨asked, holds⟩
    rw [Spot.cut_append]
    rcases roomy with above | ⟨named, even, -⟩ | ⟨flat, enough⟩
    · exact .inl ⟨spot, ⟨sealed.more, .inl above⟩, rfl⟩
    · exact .inl ⟨spot, ⟨sealed.more, .inr ⟨named, even⟩⟩, rfl⟩
    · obtain ⟨_, _, short, -, -⟩ := sealed.exists_holds holds
      exact .inr ((explorable_of_flat short flat).mono enough)

/-- Spots in the text that is cut off take the place of spots with the tail. -/
abbrev Severs (tail : List Char) : ℕ → List Spot → List Spot → Prop :=
  Mirrors (Spot.cut tail) (Tailed tail (Spot.Sealed tail)) (Tailed tail Noted)
    fun room => Tailed tail fun spot => spot.Sealed tail ∧ Roomy room spot

theorem Severs.append_sealed (sealed : ∀ spot ∈ asked, spot.Sealed tail)
    (roomy : ∀ spot ∈ asked, Roomy room spot) :
    Severs tail room (asked.map (Spot.append tail)) asked := by
  induction asked with
  | nil => exact .nil
  | cons spot asked induction =>
      rw [List.forall_mem_cons] at sealed roomy
      have image : Severs tail room _ ((spot.append tail).cut tail :: asked) :=
        .image ⟨spot, sealed.1, rfl⟩ ⟨spot, ⟨sealed.1, roomy.1⟩, rfl⟩
          (induction sealed.2 roomy.2)
      rwa [Spot.cut_append] at image

/-! ### What leaves no trace -/

/-- Where a text is cut off before the tail, the balance is even. -/
def EvenUpTo (tail ahead : List Char) : Prop :=
  ∀ short, ahead = short ++ tail → tally short = some 0

namespace EvenUpTo

theorem append (even : tally ahead = some 0) : EvenUpTo tail (ahead ++ tail) :=
  fun _ same => List.append_cancel_right same ▸ even

theorem of_weighs (even : EvenUpTo tail ahead) (weighs : Weighs 0 ahead rest) :
    EvenUpTo tail rest := by
  rintro short rfl
  obtain ⟨chars, rfl, -⟩ := id weighs
  rw [← List.append_assoc] at even weighs
  have here := weighs.cut
  rw [even _ rfl] at here
  simpa using here.symm

end EvenUpTo

theorem not_noted (even : EvenUpTo tail spot.ahead) (bare : spot.name ∉ quotedChars)
    (other : spot.name ∉ enclosing) : ¬ Tailed tail Noted spot := by
  rintro ⟨short, ⟨-, above | ⟨encloses, -⟩⟩, rfl⟩
  · exact not_inside (even _ rfl) bare above
  · exact other encloses

theorem quiet_of_length (short : spot.ahead.length ≤ tail.length) :
    Quiet (Tailed tail Noted) spot := by
  rintro below reaches - ⟨found, ⟨more, -⟩, rfl⟩
  have least := List.length_pos_iff.mpr more
  have most := reaches.suffix.length_le
  simp only [Spot.append, List.length_append] at most
  omega

mutual

/-- Whether all that an expression asks for lies where the balance is the same as ahead of it. -/
def staysEven : Node → Bool
  | .sequence children => staysEvenAll children
  | .first children => staysEvenEach children
  | .repeated child _ _ => child.references = [] || (gain child = some 0 && staysEven child)
  | .lookahead child _ => staysEven child
  | _ => true

/-- The same of expressions one after the other. -/
def staysEvenAll : List Node → Bool
  | [] => true
  | node :: rest =>
      staysEven node &&
        (Node.referencesOfAll rest = [] || (gain node = some 0 && staysEvenAll rest))

/-- The same of expressions at the same place. -/
def staysEvenEach : List Node → Bool
  | [] => true
  | node :: rest => staysEven node && staysEvenEach rest

end

/-- What is asked for lies where the balance is the same as ahead. -/
theorem Traces.weighs_of_mem (traces : Traces node ahead asked reading)
    (stays : staysEven node = true) : ∀ spot ∈ asked, Weighs 0 ahead spot.ahead := by
  induction traces with
  | matched | missed =>
      simp only [List.mem_singleton, forall_eq]
      exact .refl
  | cons head tail inductionHead inductionTail | broken head tail inductionHead inductionTail =>
      obtain ⟨first, later⟩ := Bool.and_eq_true_iff.mp stays
      refine List.forall_mem_append.mpr ⟨inductionHead first, fun spot among => ?_⟩
      rcases Bool.or_eq_true_iff.mp later with silent | later
      · have mentioned := tail.mem_references among
        rw [Node.references, of_decide_eq_true silent] at mentioned
        cases mentioned
      · obtain ⟨still, later⟩ := Bool.and_eq_true_iff.mp later
        exact (head.weighs (of_decide_eq_true still)).trans (inductionTail later spot among)
  | stop _ induction | chosen _ induction =>
      exact induction (Bool.and_eq_true_iff.mp stays).1
  | next _ _ inductionHead inductionTail =>
      obtain ⟨first, later⟩ := Bool.and_eq_true_iff.mp stays
      exact List.forall_mem_append.mpr ⟨inductionHead first, inductionTail later⟩
  | present once induction | absent once induction | exhausted once induction
  | idle once induction =>
      intro spot among
      rcases Bool.or_eq_true_iff.mp stays with silent | later
      · have mentioned := once.mem_references among
        rw [of_decide_eq_true silent] at mentioned
        cases mentioned
      · exact induction (Bool.and_eq_true_iff.mp later).2 spot among
  | again head _ tail inductionHead inductionTail =>
      intro spot among
      rcases Bool.or_eq_true_iff.mp stays with silent | later
      · have mentioned : spot.name ∈ Node.references _ :=
          (List.mem_append.mp among).elim head.mem_references tail.mem_references
        rw [of_decide_eq_true silent] at mentioned
        cases mentioned
      · obtain ⟨still, inside⟩ := Bool.and_eq_true_iff.mp later
        rcases List.mem_append.mp among with among | among
        · exact inductionHead inside spot among
        · exact (head.weighs (of_decide_eq_true still)).trans
            (inductionTail (Bool.or_eq_true_iff.mpr (.inr later)) spot among)
  | notAhead _ induction | isAhead _ induction => exact induction stays
  | _ => simp

/-- The productions that ask only for such at places with the same balance. -/
def weightless : List String :=
  ["s-ignorable", "s-space", "b-break", "comment", "line-comment", "block-comment", "hex-char",
    "hex-digit", "production-name", "name-joiner", "alnum", "alpha", "digit"]

private theorem Spot.asks_of_weightless (light : spot.name ∈ weightless) (asks : spot.Asks other) :
    other.name ∈ weightless ∧ Weighs 0 spot.ahead other.ahead := by
  obtain ⟨asked, reading, ⟨body, member, traces⟩, among⟩ := asks
  have holds := check_of_mem (fun name body => name ∉ weightless ||
    (staysEven body && body.references.all (· ∈ weightless))) (by decide +kernel) member
  simp only [light, not_true_eq_false, decide_false, Bool.false_or, Bool.and_eq_true,
    List.all_eq_true, decide_eq_true_eq] at holds
  exact ⟨holds.2 _ (traces.mem_references among), traces.weighs_of_mem holds.1 other among⟩

/-- Lexemes between the phrases of a body leave no trace. -/
theorem quiet_of_weightless (light : spot.name ∈ weightless) (even : EvenUpTo tail spot.ahead) :
    Quiet (Tailed tail Noted) spot := by
  rintro below reaches -
  have lower : below.name ∈ weightless ∧ EvenUpTo tail below.ahead := by
    induction reaches with
    | refl => exact ⟨light, even⟩
    | tail _ asks induction =>
        obtain ⟨light, weighs⟩ := Spot.asks_of_weightless induction.1 asks
        exact ⟨light, induction.2.of_weighs weighs⟩
  have apart : ∀ name ∈ weightless, name ∉ quotedChars ∧ name ∉ enclosing := by decide
  exact not_noted lower.2 (apart _ lower.1).1 (apart _ lower.1).2

/-! ### Reading up to the cut -/

/-- In the text that is cut off, an expression asks for what takes the place of some spots, and
reads up to some rest, or nothing. -/
def Cuts (tail : List Char) (room : ℕ) (node : Node) (asked : List Spot) (ahead : List Char)
    (reached : Option (List Char)) : Prop :=
  ∃ reading, Replays (Spot.cut tail) (Tailed tail (Spot.Sealed tail)) (Tailed tail Noted)
    (fun room => Tailed tail fun spot => spot.Sealed tail ∧ Roomy room spot) room node asked ahead
      reading ∧ reading.map Prod.snd = reached

namespace Cuts

theorem nil : Cuts tail room (.sequence []) [] ahead (some ahead) := ⟨_, .nil, rfl⟩

theorem cons (head : Cuts tail room node before ahead (some middle))
    (later : Cuts tail room (.sequence nodes) behind middle reached) :
    Cuts tail room (.sequence (node :: nodes)) (before ++ behind) ahead reached := by
  obtain ⟨_, first, same⟩ := head
  obtain ⟨⟨parts, middle⟩, rfl, rfl⟩ := Option.map_eq_some_iff.mp same
  obtain ⟨reading, later, rfl⟩ := later
  refine ⟨_, first.cons later, ?_⟩
  simp [Reading.prepend, Function.comp_def]

theorem stop (head : Cuts tail room node asked ahead none) :
    Cuts tail room (.sequence (node :: nodes)) asked ahead none := by
  obtain ⟨reading, replays, none⟩ := head
  obtain rfl := Option.map_eq_none_iff.mp none
  exact ⟨_, replays.stop, rfl⟩

theorem literal : Cuts tail room (.literal text) [] (text.toList ++ rest) (some rest) :=
  ⟨_, .literal, rfl⟩

theorem otherLiteral (differs : ¬ text.toList <+: ahead) :
    Cuts tail room (.literal text) [] ahead none :=
  ⟨_, .otherLiteral differs, rfl⟩

theorem notAhead (misses : Cuts tail room child asked ahead none) :
    Cuts tail room (.notAhead child) asked ahead (some ahead) := by
  obtain ⟨reading, replays, none⟩ := misses
  obtain rfl := Option.map_eq_none_iff.mp none
  exact ⟨_, replays.notAhead, rfl⟩

theorem absent (misses : Cuts tail room child asked ahead none) :
    Cuts tail room (.zeroOrMore child) asked ahead (some ahead) := by
  obtain ⟨reading, replays, none⟩ := misses
  obtain rfl := Option.map_eq_none_iff.mp none
  exact ⟨_, replays.absent, rfl⟩

theorem again (head : Cuts tail room child before ahead (some middle)) (moves : middle ≠ ahead)
    (later : Cuts tail room (.zeroOrMore child) behind middle (some rest)) :
    Cuts tail room (.zeroOrMore child) (before ++ behind) ahead (some rest) := by
  obtain ⟨_, first, same⟩ := head
  obtain ⟨⟨parts, middle⟩, rfl, rfl⟩ := Option.map_eq_some_iff.mp same
  obtain ⟨_, later, same⟩ := later
  obtain ⟨⟨more, rest⟩, rfl, rfl⟩ := Option.map_eq_some_iff.mp same
  exact ⟨_, first.again moves later, rfl⟩

theorem optional (once : Cuts tail room child asked ahead reached) :
    Cuts tail room (.optional child) asked ahead (some (reached.getD ahead)) := by
  obtain ⟨_ | read, ⟨others, traces, severs⟩, rfl⟩ := once
  · exact ⟨_, ⟨others, .absent traces, severs⟩, rfl⟩
  · exact ⟨_, ⟨others, .present traces, severs⟩, rfl⟩

theorem chosen (head : Cuts tail room node asked ahead (some rest)) :
    Cuts tail room (.first (node :: nodes)) asked ahead (some rest) := by
  obtain ⟨_, ⟨others, traces, severs⟩, same⟩ := head
  obtain ⟨read, rfl, rfl⟩ := Option.map_eq_some_iff.mp same
  exact ⟨_, ⟨others, .chosen traces, severs⟩, rfl⟩

theorem next (head : Cuts tail room node before ahead none)
    (later : Cuts tail room (.first nodes) behind ahead reached) :
    Cuts tail room (.first (node :: nodes)) (before ++ behind) ahead reached := by
  obtain ⟨_, ⟨others, traces, severs⟩, none⟩ := head
  obtain rfl := Option.map_eq_none_iff.mp none
  obtain ⟨_, ⟨more, traces', severs'⟩, rfl⟩ := later
  exact ⟨_, ⟨others ++ more, .next traces traces', severs.append severs'⟩, rfl⟩

theorem noOther : Cuts tail room (.first []) [] ahead none := ⟨_, ⟨[], .noOther, .nil⟩, rfl⟩

/-- A production that is read up to the cut is read in the text that is cut off if its body is. -/
theorem of_body (member : (name, body) ∈ rules)
    (traces : Traces (.call name) (ahead ++ tail) asked (some (parts, rest ++ tail)))
    (cuts : ∀ {asked parts}, Traces body (ahead ++ tail) asked (some (parts, rest ++ tail)) →
      Cuts tail room body asked ahead (some rest)) :
    Cuts tail (room + 1) (.call name) asked ahead (some rest) := by
  obtain ⟨rfl, ⟨_, _, _, _, holds, -, same⟩ | ⟨_, _, none⟩⟩ := traces_call.mp traces
  · cases same
    obtain ⟨_, replays, same⟩ := cuts ((holds_iff member).mp holds)
    obtain ⟨⟨parts, rest⟩, rfl, rfl⟩ := Option.map_eq_some_iff.mp same
    obtain ⟨_, short, -⟩ := id replays
    obtain ⟨chars, split⟩ := short.exists_chars
    exact ⟨_, replays.call_matched holds member split, rfl⟩
  · cases none

theorem call_missed {inner : List Spot} (holds : spot.Holds inner none)
    (member : (name, body) ∈ rules) (untracked : ¬ Tailed tail Noted spot)
    (explorable : Explorable (room + 1) ⟨name, ahead⟩)
    (cuts : Cuts tail room body inner ahead none) :
    Cuts tail (room + 1) (.call name) [spot] ahead none := by
  obtain ⟨_, replays, none⟩ := cuts
  obtain rfl := Option.map_eq_none_iff.mp none
  exact ⟨_, replays.call_missed holds member untracked explorable, rfl⟩

theorem of_quiet (traces : Traces node ahead others reading)
    (quiet : ∀ spot ∈ asked, Quiet (Tailed tail Noted) spot)
    (explorable : ∀ spot ∈ others, Explorable room spot) :
    Cuts tail room node asked ahead (reading.map Prod.snd) :=
  ⟨reading, ⟨others, traces, .of_quiet quiet explorable⟩, rfl⟩

/-- What makes no difference to the tail reads up to the same place. -/
theorem of_sealed (sealed : (⟨name, ahead⟩ : Spot).Sealed tail) (roomy : Roomy room ⟨name, ahead⟩)
    (traces : Traces (.call name) (ahead ++ tail) asked reading)
    (ends : reading.map Prod.snd = reached.map (· ++ tail)) :
    Cuts tail room (.call name) asked ahead reached := by
  obtain ⟨body, _, _, member, -⟩ := traces.exists_body
  obtain ⟨others, short, traces'⟩ := exists_traces_call member ahead
  obtain ⟨rfl, rfl⟩ := traces.unique (sealed.call traces')
  obtain ⟨rfl, -⟩ := traces_call.mp traces'
  have severs : Severs tail room ([⟨name, ahead⟩].map (Spot.append tail)) [⟨name, ahead⟩] :=
    .append_sealed (by simpa using sealed) (by simpa using roomy)
  refine ⟨short, ⟨_, traces', severs⟩, ?_⟩
  refine Option.map_injective (List.append_left_injective tail) ?_
  simpa [Reading.append, Function.comp_def] using ends

end Cuts

end Dialect

end Bnf

end ParametricGrammar
