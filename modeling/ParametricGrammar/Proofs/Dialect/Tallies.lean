import Mathlib.Algebra.Ring.Int.Defs
import ParametricGrammar.Proofs.Dialect.Mirrors
import ParametricGrammar.Proofs.SetAlgebra
/-!
# The balance of what lies ahead

Brackets that close count up and those that open count down, outside of quotes and comments, and the
sign that defines a production counts like two that close. Every production changes the balance of
what lies ahead by a fixed amount. So what is read inside of brackets never gets to the end of the
text, and this is where a text may differ from one that goes on.
-/

namespace ParametricGrammar

namespace Bnf

namespace Dialect

/-! ### Scanning -/

/-- What a scan of a grammar text is inside of. -/
inductive Mode where
  | code
  /-- A comment up to the end of its line. -/
  | line
  /-- The second character that opens a block comment. -/
  | opening
  | block
  /-- The second character that closes a block comment. -/
  | closing
  | quote (mark : Char)

/-- What a character of the code adds to the balance. -/
def weight (char : Char) : ℤ :=
  if char ∈ ['(', '[', '<', '{'] then -1 else if char ∈ [')', ']', '>', '}'] then 1 else 0

/-- The balance of a text, unless it ends inside of a quote or a block comment. -/
def balance : Mode → List Char → Option ℤ
  | .code, [] | .line, [] => some 0
  | .code, char :: rest =>
      if char = '#' then balance .line rest
      else if isQuote char then balance (.quote char) rest
      else if char = '/' ∧ rest.head? = some '*' then balance .opening rest
      else if char = ':' ∧ [':', '='] <+: rest then (balance .code rest).map (2 + ·)
      else (balance .code rest).map (weight char + ·)
  | .line, char :: rest => balance (if Piece.breaksLine char then .code else .line) rest
  | .opening, _ :: rest => balance .block rest
  | .block, char :: rest =>
      if char = '*' ∧ rest.head? = some '/' then balance .closing rest else balance .block rest
  | .closing, _ :: rest => balance .code rest
  | .quote mark, char :: rest =>
      if char = mark then balance .code rest
      else if Piece.breaksLine char then none
      else balance (.quote mark) rest
  | .opening, [] | .block, [] | .closing, [] | .quote _, [] => none

/-- The balance of what lies ahead of a place outside of quotes and comments. -/
abbrev tally (ahead : List Char) : Option ℤ := balance .code ahead

/-- Whether a character opens neither a quote nor a comment nor the sign of a definition. -/
def isPlain (char : Char) : Bool := !(isQuote char || char = '#' || char = '/' || char = ':')

variable {char : Char} {chars rest ahead : List Char} {node : Node} {asked : List Spot}
  {parts : List Part} {reading : Reading}

private theorem tally_cons (plain : isPlain char = true) :
    tally (char :: rest) = (tally rest).map (weight char + ·) := by
  simp only [isPlain, Bool.not_eq_true', Bool.or_eq_false_iff, decide_eq_false_iff_not] at plain
  simp [tally, balance, plain]

/-! ### Gains -/

/-- The characters that change the balance or open quotes, comments and the sign of a definition. -/
def weighty : List Char :=
  ['(', '[', '<', '{', ')', ']', '>', '}', ':', '#', '/', '\'', '"']

/-- What every match of a production adds to the balance, if there is such an amount. -/
def gainOf (name : String) : Option ℤ :=
  if name ∈ ["production", "production-head"] then some 2
  else if name ∈ ["grammar", "single-quoted-char", "double-quoted-char"] then none
  else some 0

mutual

/-- What every match of an expression adds to the balance, if there is such an amount. -/
def gain : Node → Option ℤ
  | .literal text =>
      if text = "::=" then some 2
      else if text.toList.all isPlain then some (text.toList.map weight).sum
      else none
  | .chars set => if weighty.all fun char => !set.contains char then some 0 else none
  | .reference name _ => gainOf name
  | .sequence children => gainOfAll children
  | .first children => gainOfEach children
  | .repeated child _ _ => if gain child = some 0 then some 0 else none
  | .empty | .lookahead _ _ => some 0
  | _ => none

/-- What every match of expressions one after the other adds to the balance. -/
def gainOfAll : List Node → Option ℤ
  | [] => some 0
  | node :: rest => (gain node).bind fun first => (gainOfAll rest).map (first + ·)

/-- What every match of one of some expressions adds to the balance, if they agree. -/
def gainOfEach : List Node → Option ℤ
  | [] => none
  | [node] => gain node
  | node :: rest => if gainOfEach rest = gain node then gain node else none

end

/-! ### Texts that end earlier -/

/-- What is read up to some rest adds an amount to the balance, also if the text ends within the
rest. -/
def Weighs (amount : ℤ) (ahead rest : List Char) : Prop :=
  ∃ chars, ahead = chars ++ rest ∧
    ∀ before, before <+: rest → tally (chars ++ before) = (tally before).map (amount + ·)

namespace Weighs

variable {amount more : ℤ} {last tail : List Char}

theorem refl : Weighs 0 ahead ahead :=
  ⟨[], rfl, fun before _ => by simp⟩

/-- What does not count adds nothing. -/
theorem of_even (chars : List Char) (split : ahead = chars ++ rest)
    (even : ∀ before, before <+: rest → tally (chars ++ before) = tally before) :
    Weighs 0 ahead rest :=
  ⟨chars, split, fun before starts => by simp [even before starts]⟩

theorem trans (first : Weighs amount ahead rest) (later : Weighs more rest last) :
    Weighs (amount + more) ahead last := by
  obtain ⟨chars, rfl, adds⟩ := first
  obtain ⟨others, rfl, adds'⟩ := later
  refine ⟨chars ++ others, (List.append_assoc ..).symm, fun before starts => ?_⟩
  have longer : others ++ before <+: others ++ last := (List.prefix_append_right_inj _).mpr starts
  rw [List.append_assoc, adds _ longer, adds' _ starts, Option.map_map]
  simp [Function.comp_def, add_assoc]

private theorem tally_eq (weighs : Weighs amount ahead rest) :
    tally ahead = (tally rest).map (amount + ·) := by
  obtain ⟨chars, rfl, adds⟩ := weighs
  exact adds rest List.prefix_rfl

/-- The amount is the same in the text that ends before a tail. -/
theorem cut (weighs : Weighs amount (ahead ++ tail) (rest ++ tail)) :
    tally ahead = (tally rest).map (amount + ·) := by
  obtain ⟨chars, split, adds⟩ := weighs
  rw [← List.append_assoc] at split
  rw [List.append_cancel_right split]
  exact adds rest (List.prefix_append rest tail)

end Weighs

/-! ### Plain text, quotes and comments -/

theorem tally_append (plain : chars.all isPlain = true) :
    tally (chars ++ rest) = (tally rest).map ((chars.map weight).sum + ·) := by
  induction chars with
  | nil => simp
  | cons char chars induction =>
      obtain ⟨first, more⟩ := Bool.and_eq_true_iff.mp plain
      rw [List.cons_append, tally_cons first, induction more, Option.map_map]
      simp [Function.comp_def, add_assoc]

private theorem tally_sign (rest : List Char) :
    tally ("::=".toList ++ rest) = (tally rest).map (2 + ·) := by
  change balance .code (':' :: ':' :: '=' :: rest) = _
  simp [balance, isQuote, weight]

private theorem balance_quote {mark : Char} (quoted : chars.all (fits mark) = true) :
    balance (.quote mark) (chars ++ mark :: rest) = tally rest := by
  induction chars with
  | nil => simp [balance]
  | cons char chars induction =>
      obtain ⟨first, more⟩ := Bool.and_eq_true_iff.mp quoted
      simp only [fits, Bool.not_eq_true', Bool.or_eq_false_iff, decide_eq_false_iff_not] at first
      simp [balance, first, induction more]

private theorem tally_quoted {mark : Char} (quote : isQuote mark = true)
    (quoted : chars.all (fits mark) = true) :
    tally (mark :: (chars ++ mark :: rest)) = tally rest := by
  have hash : mark ≠ '#' := by
    rintro rfl
    simp [isQuote] at quote
  simp [tally, balance, hash, quote, balance_quote quoted]

private theorem weighs_quoted {mark : Char} (quote : isQuote mark = true)
    (quoted : chars.all (fits mark) = true) : Weighs 0 (mark :: (chars ++ mark :: rest)) rest :=
  .of_even (mark :: (chars ++ [mark])) (by simp) fun before _ => by
    simpa using tally_quoted quote quoted

private theorem balance_line (single : ∀ char ∈ chars, Piece.breaksLine char = false)
    (stops : ∀ char ∈ rest.head?, Piece.breaksLine char = true) :
    balance .line (chars ++ rest) = tally rest := by
  induction chars with
  | nil =>
      cases rest with
      | nil => rfl
      | cons char rest =>
          have breaks := stops char rfl
          have plain : isPlain char = true := by
            rcases Bool.or_eq_true_iff.mp breaks with same | same <;>
              rw [of_decide_eq_true same] <;> decide
          have light : weight char = 0 := by
            rcases Bool.or_eq_true_iff.mp breaks with same | same <;>
              rw [of_decide_eq_true same] <;> decide
          rw [tally_cons plain, light]
          simp [balance, breaks]
  | cons char chars induction =>
      rw [List.forall_mem_cons] at single
      simp [balance, single.1, induction single.2]

theorem balance_block (more : ¬ ['*', '/'] <+: char :: rest) :
    balance .block (char :: rest) = balance .block rest := by
  have apart : ¬ (char = '*' ∧ rest.head? = some '/') := by
    rintro ⟨rfl, slash⟩
    obtain ⟨tail, rfl⟩ := List.head?_eq_some_iff.mp slash
    exact more ⟨tail, rfl⟩
  simp only [balance, apart, if_false]

/-- A repeated letter is read up to the first other character. -/
theorem exists_run {depth : ℕ} {may : Char → Bool} {leaves : Leaves} {least : UInt32}
    (letter : Letter depth node may leaves) (traceable : node.isTraceable = true)
    (traces : Traces (.repeated node (.fixed least) none) ahead asked (some (parts, rest))) :
    ∃ chars, ahead = chars ++ rest ∧ (∀ char ∈ chars, may char = true) ∧
      ∀ char ∈ rest.head?, may char = false := by
  refine traces.steps (fun ahead rest => ∃ chars, ahead = chars ++ rest ∧
    (∀ char ∈ chars, may char = true) ∧ ∀ char ∈ rest.head?, may char = false) ?_ ?_ ?_
  · intro ahead asked misses
    obtain ⟨_, _, _, -, -, none⟩ | ⟨others, -⟩ := reads_of_letter letter traceable misses
    · cases none
    · exact ⟨[], rfl, by simp, others⟩
  · intro ahead asked parts once
    obtain ⟨char, rest, _, rfl, -, same⟩ | ⟨-, none⟩ := reads_of_letter letter traceable once
    · simp at same
    · cases none
  · rintro ahead asked parts middle rest once ⟨chars, rfl, all, others⟩
    obtain ⟨char, _, _, rfl, holds, same⟩ | ⟨-, none⟩ := reads_of_letter letter traceable once
    · cases same
      exact ⟨char :: chars, rfl, List.forall_mem_cons.mpr ⟨holds, all⟩, others⟩
    · cases none

/-- What is read between two literals. -/
theorem Traces.between {opening closing : String}
    (traces : Traces (.sequence [.literal opening, node, .literal closing]) ahead asked
      (some (parts, rest))) :
    ∃ inner asked parts, ahead = opening.toList ++ inner ∧
      Traces node inner asked (some (parts, closing.toList ++ rest)) := by
  obtain ⟨_, _, _, _, _, first, tail, -, -⟩ := traces_sequence_cons_some.mp traces
  obtain ⟨-, -, rfl⟩ := traces_literal_some.mp first
  obtain ⟨_, _, _, _, _, middle, behind, -, -⟩ := traces_sequence_cons_some.mp tail
  obtain ⟨_, _, _, _, _, last, none, -, -⟩ := traces_sequence_cons_some.mp behind
  obtain ⟨-, -, rfl⟩ := traces_literal_some.mp last
  obtain ⟨-, same⟩ := traces_sequence_nil.mp none
  cases same
  exact ⟨_, _, _, rfl, middle⟩

/-! ### Productions that enclose text -/

/-- The productions that quotes and comments are made of. -/
def enclosures : List String :=
  ["quoted-string", "quoted-char", "line-comment", "block-comment"]

private theorem gain_of_mem {name : String} {body : Node} (member : (name, body) ∈ rules)
    (other : name ∉ enclosures) {amount : ℤ} (gains : gainOf name = some amount) :
    gain body = some amount := by
  have holds := check_of_mem (fun name body =>
    name ∈ enclosures || gainOf name = none || gain body = gainOf name) (by decide +kernel) member
  simp only [other, gains, decide_false, Bool.false_or, reduceCtorEq, decide_eq_true_eq] at holds
  exact holds

private theorem weighs_of_quoted {depth : ℕ} {name text : String} {mark : Char} {leaves : Leaves}
    {least : UInt32} (letter : Letter depth (.call name) (fits mark) leaves)
    (spelled : text.toList = [mark]) (quote : isQuote mark = true)
    (traces : Traces (.sequence
      [.literal text, .repeated (.call name) (.fixed least) none, .literal text]) ahead asked
        (some (parts, rest))) : Weighs 0 ahead rest := by
  obtain ⟨_, _, _, rfl, inside⟩ := traces.between
  obtain ⟨chars, rfl, all, -⟩ := exists_run letter rfl inside
  rw [spelled]
  exact weighs_quoted quote (List.all_eq_true.mpr all)

private theorem weighs_of_quotedChar {depth : ℕ} {name text : String} {mark : Char}
    {leaves : Leaves} (letter : Letter depth (.call name) (fits mark) leaves)
    (spelled : text.toList = [mark]) (quote : isQuote mark = true)
    (traces : Traces (.sequence [.literal text, .call name, .literal text]) ahead asked
      (some (parts, rest))) : Weighs 0 ahead rest := by
  obtain ⟨_, _, _, rfl, inside⟩ := traces.between
  obtain ⟨char, _, _, rfl, holds, same⟩ | ⟨-, none⟩ := reads_of_letter letter rfl inside
  · cases same
    rw [spelled]
    have quoted : [char].all (fits mark) = true := by simpa using holds
    exact weighs_quoted quote quoted
  · cases none

private theorem weighs_of_lineComment
    (traces : Traces (.sequence [.literal "#", .zeroOrMore (anyExcept ['\n', '\r'])]) ahead asked
      (some (parts, rest))) : Weighs 0 ahead rest := by
  obtain ⟨_, _, _, _, _, opening, tail, -, -⟩ := traces_sequence_cons_some.mp traces
  obtain ⟨-, -, rfl⟩ := traces_literal_some.mp opening
  obtain ⟨_, _, _, _, _, run, none, -, -⟩ := traces_sequence_cons_some.mp tail
  obtain ⟨chars, rfl, all, stops⟩ := exists_run (@letter_lineChar 0) rfl run
  obtain ⟨-, same⟩ := traces_sequence_nil.mp none
  cases same
  refine .of_even ('#' :: chars) rfl fun before starts => ?_
  refine balance_line (by simpa using all) fun char first => ?_
  obtain ⟨behind, rfl⟩ := starts
  cases before with
  | nil => cases first
  | cons other before =>
      cases first
      simpa using stops char rfl

theorem contains_any (char : Char) : CharSet.any.contains char = true := by
  refine (CharSet.has_any char.val).mpr (UInt32.le_iff_toNat_le.mpr ?_)
  exact Nat.lt_succ_iff.mp (toNat_lt char)

/-- What a block comment may go on with. -/
def commentStep : Node := .sequence [.notAhead (.literal "*/"), .chars .any]

theorem Traces.commentStep (once : Traces commentStep ahead asked (some (parts, rest))) :
    ∃ char, ahead = char :: rest ∧ ¬ "*/".toList <+: ahead := by
  obtain ⟨_, _, _, _, _, guard, tail, -, -⟩ := traces_sequence_cons_some.mp once
  obtain ⟨apart, same⟩ | ⟨_, -, none⟩ := traces_notAhead.mp guard
  · cases same
    obtain ⟨_, _, _, _, _, any, none, -, -⟩ := traces_sequence_cons_some.mp tail
    obtain ⟨-, same⟩ := traces_sequence_nil.mp none
    cases same
    obtain ⟨-, ⟨char, _, rfl, -, same⟩ | ⟨-, none⟩⟩ := traces_chars.mp any
    · cases same
      obtain ⟨-, ⟨_, -, none⟩ | ⟨more, -⟩⟩ := traces_literal.mp apart
      · cases none
      · exact ⟨char, rfl, more⟩
    · cases none
  · cases none

private theorem Traces.commentStops (misses : Traces Dialect.commentStep ahead asked none) :
    ahead = [] ∨ "*/".toList <+: ahead := by
  obtain ⟨guard, -⟩ | ⟨_, _, _, _, later, guard, tail, -, none⟩ := traces_sequence_cons.mp misses
  · obtain ⟨-, none⟩ | ⟨read, closes, -⟩ := traces_notAhead.mp guard
    · cases none
    · obtain ⟨-, -, spelled⟩ := traces_literal_some.mp closes
      exact .inr ⟨_, spelled.symm⟩
  · obtain ⟨-, same⟩ | ⟨_, -, none⟩ := traces_notAhead.mp guard
    · cases same
      cases later with
      | some => cases none
      | none =>
          obtain ⟨any, -⟩ | ⟨_, _, _, _, _, -, last, -, none⟩ := traces_sequence_cons.mp tail
          · obtain ⟨-, ⟨_, _, -, -, none⟩ | ⟨others, -⟩⟩ := traces_chars.mp any
            · cases none
            · cases ahead with
              | nil => exact .inl rfl
              | cons char ahead =>
                  simp [contains_any] at others
          · obtain ⟨-, rfl⟩ := traces_sequence_nil.mp last
            cases none
    · cases none

/-- An open block comment is read up to its end, or to the end of the text. -/
theorem balance_of_open
    (run : Traces (.zeroOrMore commentStep) ahead asked (some (parts, rest))) :
    ∃ chars, ahead = chars ++ rest ∧
      (∀ before, before <+: rest → balance .block (chars ++ before) = balance .block before) ∧
        (rest = [] ∨ "*/".toList <+: rest) := by
  refine run.steps (fun ahead rest => ∃ chars, ahead = chars ++ rest ∧
    (∀ before, before <+: rest → balance .block (chars ++ before) = balance .block before) ∧
      (rest = [] ∨ "*/".toList <+: rest)) ?_ ?_ ?_
  · exact fun misses => ⟨[], rfl, fun _ _ => rfl, misses.commentStops⟩
  · intro ahead asked parts once
    obtain ⟨char, same, -⟩ := once.commentStep
    simp at same
  · rintro ahead asked parts middle rest once ⟨chars, rfl, same, stops⟩
    obtain ⟨char, rfl, more⟩ := once.commentStep
    refine ⟨char :: chars, rfl, fun before starts => ?_, stops⟩
    have longer : char :: (chars ++ before) <+: char :: (chars ++ rest) :=
      List.cons_prefix_cons.mpr ⟨rfl, (List.prefix_append_right_inj _).mpr starts⟩
    exact (balance_block fun closes => more (closes.trans longer)).trans (same before starts)

private theorem weighs_of_blockComment
    (traces : Traces (.sequence [.literal "/*", .zeroOrMore commentStep, .literal "*/"]) ahead asked
      (some (parts, rest))) : Weighs 0 ahead rest := by
  obtain ⟨inner, _, _, rfl, run⟩ := traces.between
  obtain ⟨chars, rfl, same, -⟩ := balance_of_open run
  refine .of_even ("/*".toList ++ (chars ++ "*/".toList)) (by simp) fun before starts => ?_
  have closed := same ("*/".toList ++ before) ((List.prefix_append_right_inj _).mpr starts)
  rw [List.append_assoc, List.append_assoc]
  exact closed

/-- What quotes and comments enclose does not count. -/
theorem weighs_of_enclosure {name : String} {body : Node} (member : (name, body) ∈ rules)
    (enclosed : name ∈ enclosures)
    (traces : Traces body ahead asked (some (parts, rest))) : Weighs 0 ahead rest := by
  simp only [enclosures, List.mem_cons, List.not_mem_nil, or_false] at enclosed
  rcases enclosed with rfl | rfl | rfl | rfl
  · obtain rfl := body_unique member (by simp [rules]; rfl)
    obtain ⟨_, ⟨⟩, single⟩ | ⟨_, _, -, later, -⟩ := traces_first_cons.mp traces
    · exact weighs_of_quoted (@letter_singleQuoted 0) rfl rfl single
    · obtain ⟨_, ⟨⟩, double⟩ | ⟨_, _, -, none, -⟩ := traces_first_cons.mp later
      · exact weighs_of_quoted (@letter_doubleQuoted 0) rfl rfl double
      · cases none
  · obtain rfl := body_unique member (by simp [rules]; rfl)
    obtain ⟨_, ⟨⟩, single⟩ | ⟨_, _, -, later, -⟩ := traces_first_cons.mp traces
    · exact weighs_of_quotedChar (@letter_singleQuoted 0) rfl rfl single
    · obtain ⟨_, ⟨⟩, double⟩ | ⟨_, _, -, none, -⟩ := traces_first_cons.mp later
      · exact weighs_of_quotedChar (@letter_doubleQuoted 0) rfl rfl double
      · cases none
  · obtain rfl := body_unique member (by simp [rules]; rfl)
    exact weighs_of_lineComment traces
  · obtain rfl := body_unique member (by simp [rules]; rfl)
    exact weighs_of_blockComment traces

private theorem plain_of_notMem_weighty (light : char ∉ weighty) :
    isPlain char = true ∧ weight char = 0 := by
  simp only [weighty, List.mem_cons, List.not_mem_nil, or_false, not_or] at light
  simp [isPlain, isQuote, weight, light]

private theorem gainOfEach_cons {nodes : List Node} {amount : ℤ}
    (gains : gainOfEach (node :: nodes) = some amount) :
    gain node = some amount ∧ (nodes = [] ∨ gainOfEach nodes = some amount) := by
  cases nodes with
  | nil => exact ⟨gains, .inl rfl⟩
  | cons other nodes =>
      rw [gainOfEach] at gains
      · split at gains
        · rename_i same
          exact ⟨gains, .inr (same.trans gains)⟩
        · cases gains
      · simp

private theorem gain_repeated {minimum : Bound} {maximum : Option Bound} {amount : ℤ}
    (gains : gain (.repeated node minimum maximum) = some amount) :
    amount = 0 ∧ gain node = some 0 := by
  rw [gain] at gains
  split at gains
  · exact ⟨(Option.some.inj gains).symm, ‹_›⟩
  · cases gains

/-- What is read adds a known amount to the balance. -/
theorem Traces.weighs {amount : ℤ} (traces : Traces node ahead asked (some (parts, rest)))
    (gains : gain node = some amount) : Weighs amount ahead rest := by
  generalize read : some (parts, rest) = reading at traces
  induction traces generalizing parts rest amount with
  | empty | nil | notAhead =>
      cases read
      cases gains
      exact .refl
  | ends => cases gains
  | @literal text _ _ spelled =>
      cases read
      refine ⟨text.toList, spelled, fun before _ => ?_⟩
      rw [gain] at gains
      split at gains
      · rename_i sign
        cases gains
        rw [sign]
        exact tally_sign before
      · split at gains
        · cases gains
          exact tally_append ‹_›
        · cases gains
  | @chars set char _ member =>
      cases read
      refine ⟨[char], rfl, fun before _ => ?_⟩
      rw [gain] at gains
      split at gains
      · rename_i all
        cases gains
        have light : char ∉ weighty := fun among => by
          have other := List.all_eq_true.mp all _ among
          rw [member] at other
          cases other
        obtain ⟨plain, zero⟩ := plain_of_notMem_weighty light
        rw [List.singleton_append, tally_cons plain, zero]
      · cases gains
  | @matched name _ _ _ _ _ _ member _ inside induction =>
      cases read
      by_cases enclosed : name ∈ enclosures
      · have zero : gainOf name = some 0 := by
          simp only [enclosures, List.mem_cons, List.not_mem_nil, or_false] at enclosed
          rcases enclosed with rfl | rfl | rfl | rfl <;> rfl
        cases zero.symm.trans gains
        exact weighs_of_enclosure member enclosed inside
      · exact induction (gain_of_mem member enclosed gains) rfl
  | cons _ _ inductionHead inductionTail =>
      cases read
      rw [gain, gainOfAll] at gains
      obtain ⟨first, here, later⟩ := Option.bind_eq_some_iff.mp gains
      obtain ⟨more, there, rfl⟩ := Option.map_eq_some_iff.mp later
      exact (inductionHead here rfl).trans (inductionTail there rfl)
  | chosen _ induction =>
      exact induction (gainOfEach_cons gains).1 read
  | next _ tail _ induction =>
      subst read
      rcases (gainOfEach_cons gains).2 with rfl | gains
      · cases tail
      · exact induction gains rfl
  | present _ induction =>
      obtain ⟨rfl, still⟩ := gain_repeated gains
      exact induction still read
  | absent =>
      cases read
      obtain ⟨rfl, -⟩ := gain_repeated gains
      exact .refl
  | exhausted =>
      obtain ⟨rfl, -⟩ := gain_repeated gains
      split at read
      · cases read
        exact .refl
      · cases read
  | idle _ induction =>
      obtain ⟨rfl, still⟩ := gain_repeated gains
      exact induction still read
  | @again child _ _ _ _ _ _ _ _ _ _ _ inductionHead inductionTail =>
      cases read
      obtain ⟨rfl, still⟩ := gain_repeated gains
      have more : gain (.repeated child (.fixed 0) none) = some 0 := by rw [gain, if_pos still]
      exact (inductionHead still rfl).trans (inductionTail more rfl)
  | _ => cases read

theorem Traces.tally_eq {amount : ℤ} (traces : Traces node ahead asked (some (parts, rest)))
    (gains : gain node = some amount) : tally ahead = (tally rest).map (amount + ·) :=
  (traces.weighs gains).tally_eq

end Dialect

end Bnf

end ParametricGrammar
