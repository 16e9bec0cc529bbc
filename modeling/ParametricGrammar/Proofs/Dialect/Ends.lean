import ParametricGrammar.Proofs.Dialect.Lexemes
import ParametricGrammar.Proofs.Dialect.Meanings
/-!
# Where phrases end

A phrase ends where what comes next cannot continue it: behind blanks stands a closing sign, the
next clause or nothing. The first character that is not blank decides which productions can match.
-/

namespace ParametricGrammar

namespace Bnf

namespace Dialect

variable {depth : ℕ} {chars rest ahead : List Char} {name : String}

/-! ### Where phrases end -/

/-- What comes after the blanks ahead. -/
def visible (rest : List Char) : List Char := rest.dropWhile isBlank

/-- A blank or nothing comes next, and behind all blanks nothing that is ignored and no colon. -/
structure Apart (rest : List Char) : Prop where
  blank : ∀ char ∈ rest.head?, isBlank char = true
  plain : ∀ char ∈ (visible rest).head?, opensIgnorable char = false ∧ char ≠ ':'

/-- A mark may come before what ends an atom, or a count in braces after it. -/
def EndsAtom (rest : List Char) : Prop :=
  Apart rest ∨ (∃ (mark : Mark) (tail : List Char), rest = mark.char :: tail ∧ Apart tail) ∨
    rest.head? = some '{'

/-- No other operand is excluded next. -/
def EndsDifference (rest : List Char) : Prop :=
  Apart rest ∧ (visible rest).head? ≠ some '-'

/-- A clause comes next: its name, or a number in brackets before that, and all of its head. -/
structure StartsClause (tail : List Char) : Prop where
  opens : ∃ char more, tail = char :: more ∧ (char.isAlpha = true ∨ char = '[')
  takes : ∀ depth, ∃ chars rest, tail = chars ++ rest ∧
    Takes (depth + 8) (.call "production-head") chars rest anything

/-- Nothing, a closing sign, or a clause. -/
def Closes (tail : List Char) : Prop :=
  (∀ char ∈ tail.head?, char ∈ [')', ']', '|']) ∨ StartsClause tail

/-- No other part of a row comes next. -/
def EndsSequence (rest : List Char) : Prop := Apart rest ∧ Closes (visible rest)

/-- No other alternative comes next. -/
def EndsAlternation (rest : List Char) : Prop :=
  EndsSequence rest ∧ (visible rest).head? ≠ some '|'

theorem takeWhile_append_visible (rest : List Char) :
    rest.takeWhile isBlank ++ visible rest = rest :=
  List.takeWhile_append_dropWhile

theorem Apart.takes_blanks (apart : Apart rest) :
    Takes (depth + 3) (.call "s-ignorable") (rest.takeWhile isBlank) (visible rest)
      (named "s-ignorable") :=
  takes_ignorable (.of_blank fun _ => List.mem_takeWhile_imp) fun char member =>
    (apart.plain char member).1

variable {blank char : Char} {tail : List Char}

theorem visible_blank (separates : isBlank blank = true) (plain : opensIgnorable char = false) :
    visible (blank :: char :: tail) = char :: tail := by
  have noBlank : isBlank char = false := by
    simp only [opensIgnorable, Bool.or_eq_false_iff] at plain
    exact plain.1.1
  simp [visible, separates, noBlank]

theorem apart_blank (separates : isBlank blank = true) (plain : opensIgnorable char = false)
    (noColon : char ≠ ':') : Apart (blank :: char :: tail) where
  blank other member := by
    obtain rfl : blank = other := by simpa using member
    exact separates
  plain other member := by
    rw [visible_blank separates plain] at member
    obtain rfl : char = other := by simpa using member
    exact ⟨plain, noColon⟩

/-- Whether a character opens an atom. -/
def opensAtom (char : Char) : Bool :=
  char.isAlpha || ['[', '<', '(', '\'', '"', '.'].contains char

theorem opensAtom_of_isAlpha {char : Char} (alpha : char.isAlpha = true) :
    opensAtom char = true := by
  simp [opensAtom, alpha]

/-- What opens an atom is neither ignored nor a sign between phrases. -/
theorem plain_of_opensAtom {char : Char} (opens : opensAtom char = true) :
    opensIgnorable char = false ∧ char ∉ [':', '-', '|', ')', ']'] := by
  constructor
  · by_contra other
    have ignored : opensIgnorable char = true := by simpa using other
    simp only [opensIgnorable, isBlank, isSpace, Piece.breaksLine, Bool.or_eq_true,
      decide_eq_true_eq, or_assoc] at ignored
    rcases ignored with rfl | rfl | rfl | rfl | rfl | rfl <;> exact absurd opens (by decide)
  · intro member
    simp only [List.mem_cons, List.not_mem_nil, or_false] at member
    rcases member with rfl | rfl | rfl | rfl | rfl <;> exact absurd opens (by decide)

/-! ### What is not there -/

theorem refuses_lookaround (other : ahead.head? ≠ some '[') :
    Refuses (depth + 1) (.call "lookaround") ahead :=
  refuses_opening _ "[" '[' (by simp [rules]; rfl) rfl other

/-- A bracket opens no lookaround unless `lookahead` or `lookbehind` follows. -/
theorem refuses_lookaround_of_bracket {tail : List Char}
    (noSpace : ∀ char ∈ tail.head?, isSpace char = false) (other : tail.head? ≠ some 'l') :
    Refuses (depth + 2) (.call "lookaround") ('[' :: tail) := by
  have negative : Refuses (depth + 1) (.call "lookahead-negative") tail :=
    refuses_opening _ "lookahead" 'l' (by simp [rules]; rfl) rfl other
  have positive : Refuses (depth + 1) (.call "lookahead-positive") tail :=
    refuses_opening _ "lookahead" 'l' (by simp [rules]; rfl) rfl other
  have behind : Refuses (depth + 1) (.call "lookbehind-positive") tail :=
    refuses_opening _ "lookbehind" 'l' (by simp [rules]; rfl) rfl other
  have gap : Takes (depth + 1) spaces [] tail (named "s-space") :=
    letter_space.zeroOrMore (gathers_named _) (by simp) noSpace
  exact ((takes_literal "[" rfl : Takes _ _ ['['] tail _).refuses
    (gap.refuses (negative.both (positive.both (behind.both refuses_none))).sequence)).call _
      (by simp [rules]; rfl)

theorem refuses_special (other : ahead.head? ≠ some '<') :
    Refuses (depth + 1) (.call "special") ahead :=
  refuses_opening _ "<" '<' (by simp [rules]; rfl) rfl other

theorem refuses_group (other : ahead.head? ≠ some '(') :
    Refuses (depth + 1) (.call "group") ahead :=
  refuses_opening _ "(" '(' (by simp [rules]; rfl) rfl other

private theorem refuses_codePointRange (other : ahead.head? ≠ some '[') :
    Refuses (depth + 1) (.call "code-point-range") ahead :=
  refuses_opening _ "[" '[' (by simp [rules]; rfl) rfl other

/-- The alternatives of an atom that open with a bracket. -/
def bracketed : List Node :=
  [.call "lookaround", .call "special", .call "group", .call "code-point-range"]

theorem refuses_bracketed (square : ahead.head? ≠ some '[') (angle : ahead.head? ≠ some '<')
    (round : ahead.head? ≠ some '(') : ∀ part ∈ bracketed, Refuses (depth + 1) part ahead := by
  simp only [bracketed, List.forall_mem_cons, List.not_mem_nil, false_imp_iff, implies_true,
    and_true]
  exact ⟨refuses_lookaround square, refuses_special angle, refuses_group round,
    refuses_codePointRange square⟩

theorem refuses_hexChar_of_ne (other : ahead.head? ≠ some 'x') :
    Refuses (depth + 1) (.call "hex-char") ahead :=
  refuses_opening _ "x" 'x' (by simp [rules]; rfl) rfl other

theorem refuses_quotedString (single : ahead.head? ≠ some '\'') (double : ahead.head? ≠ some '"') :
    Refuses (depth + 1) (.call "quoted-string") ahead :=
  (((refuses_literal "'" '\'' rfl single).sequence).both
    ((refuses_literal "\"" '"' rfl double).sequence.both refuses_none)).call _
      (by simp [rules]; exact ⟨rfl, rfl⟩)

theorem refuses_anyChar (other : ahead.head? ≠ some '.') :
    Refuses (depth + 1) (.call "any-char") ahead :=
  (refuses_literal "." '.' rfl other).call _ (by simp [rules])

theorem refuses_name (other : ∀ char ∈ ahead.head?, char.isAlpha = false) :
    Refuses (depth + 2) (.call "production-name") ahead :=
  (letter_alpha.refuses other).sequence.call _ (by simp [rules]; rfl)

theorem refuses_parameterList (other : ahead.head? ≠ some '(') :
    Refuses (depth + 1) (.call "parameter-list") ahead :=
  refuses_opening _ "(" '(' (by simp [rules]; rfl) rfl other

theorem refuses_sectionNumber (other : ahead.head? ≠ some '[') :
    Refuses (depth + 1) (.call "section-number") ahead :=
  refuses_opening _ "[" '[' (by simp [rules]; rfl) rfl other

theorem refuses_decimal (other : ∀ char ∈ ahead.head?, (char.isDigit || char = '-') = false) :
    Refuses (depth + 2) (.call "decimal") ahead := by
  have apart : ∀ char ∈ ahead.head?, char.isDigit = false ∧ char ≠ '-' := fun char member => by
    simpa using other char member
  have sign : Takes (depth + 1) (.optional (.literal "-")) [] ahead silent :=
    (refuses_literal "-" '-' rfl fun same => (apart _ same).2 rfl).optional
  have digits : Refuses (depth + 1) (.oneOrMore (.call "digit")) ahead :=
    (letter_digit.refuses fun char member => (apart char member).1).oneOrMore
  exact (sign.refuses digits.sequence).call _ (by simp [rules]; rfl)

/-- Whether a name or a bracket with a number could start a clause there. -/
theorem refuses_head (name : ∀ char ∈ ahead.head?, char.isAlpha = false)
    (number : ahead.head? = some '[' →
      ∀ char ∈ ahead.tail.head?, (char.isDigit || char = '-') = false) :
    Refuses (depth + 4) (.call "production-head") ahead := by
  have label : Refuses (depth + 3) (.call "section-number") ahead := by
    by_cases bracket : ahead.head? = some '['
    · obtain ⟨tail, rfl⟩ : ∃ tail, ahead = ['['] ++ tail := ⟨ahead.tail, by
        cases ahead <;> simp_all⟩
      exact ((takes_literal "[" rfl).refuses (refuses_decimal (number bracket)).sequence).call _
        (by simp [rules]; rfl)
    · exact refuses_sectionNumber bracket
  exact (label.optional.refuses (refuses_name name).sequence).call _ (by simp [rules]; rfl)

private theorem Apart.head_cases (apart : Apart rest) :
    rest = [] ∨ ∃ char tail, rest = char :: tail ∧ char ∈ [' ', '\t', '\n', '\r'] := by
  cases rest with
  | nil => exact .inl rfl
  | cons char tail =>
      have blank := apart.blank char rfl
      simp only [isBlank, isSpace, Piece.breaksLine, Bool.or_eq_true, decide_eq_true_eq] at blank
      exact .inr ⟨char, tail, rfl, by simp only [List.mem_cons]; tauto⟩

theorem Apart.head_ne {char : Char} (apart : Apart rest) (other : isBlank char = false) :
    rest.head? ≠ some char := by
  intro same
  rw [apart.blank char same] at other
  cases other

theorem eq_of_head? {char : Char} (same : rest.head? = some char) :
    ∃ tail, rest = char :: tail := by
  cases rest with
  | nil => cases same
  | cons first tail =>
      obtain rfl : first = char := by simpa using same
      exact ⟨tail, rfl⟩

/-- Behind an atom stands nothing, a blank, a mark before nothing or a blank, or a brace. -/
theorem EndsAtom.endsName (ends : EndsAtom rest) : endsName rest = true := by
  rcases ends with apart | ⟨mark, tail, rfl, apart⟩ | brace
  · rcases apart.head_cases with rfl | ⟨char, tail, rfl, member⟩
    · rfl
    · simp only [List.mem_cons, List.not_mem_nil, or_false] at member
      rcases member with rfl | rfl | rfl | rfl <;> cases tail <;> rfl
  · rcases apart.head_cases with rfl | ⟨char, tail, rfl, member⟩
    · cases mark <;> rfl
    · simp only [List.mem_cons, List.not_mem_nil, or_false] at member
      rcases member with rfl | rfl | rfl | rfl <;> cases mark <;> rfl
  · obtain ⟨_ | ⟨char, tail⟩, rfl⟩ := eq_of_head? brace <;> rfl

theorem EndsAtom.head (ends : EndsAtom rest) : ∀ char ∈ rest.head?, char.isAlphanum = false :=
  head_of_endsName ends.endsName

theorem EndsAtom.noParameters (ends : EndsAtom rest) : rest.head? ≠ some '(' := by
  rcases ends with apart | ⟨mark, tail, rfl, -⟩ | brace
  · rcases apart.head_cases with rfl | ⟨char, tail, rfl, member⟩
    · simp
    · rintro ⟨rfl⟩
      exact absurd member (by decide)
  · cases mark <;> simp [Mark.char]
  · simp [brace]

/-- The blanks behind an atom are taken, and no colon comes behind them. -/
theorem EndsAtom.takes_blanks (ends : EndsAtom rest) :
    ∃ blanks behind, rest = blanks ++ behind ∧ behind.head? ≠ some ':' ∧
      ∀ depth, Takes (depth + 3) (.call "s-ignorable") blanks behind (named "s-ignorable") := by
  rcases ends with apart | ⟨mark, tail, rfl, -⟩ | brace
  · exact ⟨_, _, (takeWhile_append_visible rest).symm, fun same => (apart.plain _ same).2 rfl,
      fun _ => apart.takes_blanks⟩
  · exact ⟨[], _, rfl, by cases mark <;> simp [Mark.char],
      fun _ => takes_ignorable .nil (by cases mark <;> simp [Mark.char] <;> decide)⟩
  · exact ⟨[], _, rfl, by simp [brace],
      fun _ => takes_ignorable .nil (by simp [brace]; decide)⟩

theorem head?_ne_of_isName {sign : Char} (valid : isName chars = true)
    (other : sign.isAlpha = false) (tail : List Char) : (chars ++ tail).head? ≠ some sign := by
  cases chars with
  | nil => cases valid
  | cons char chars =>
      rintro ⟨rfl⟩
      rw [isAlpha_of_isName valid] at other
      cases other

private theorem continuesName_of_isAlphanum (all : ∀ char ∈ chars, char.isAlphanum = true) :
    continuesName chars = true := by
  fun_induction continuesName chars with
  | case1 => rfl
  | case2 char => exact all char List.mem_cons_self
  | case3 char next rest alnum induction =>
      exact induction fun other member => all other (List.mem_cons_of_mem _ member)
  | case4 char next rest other => exact absurd (all char List.mem_cons_self) other

theorem isName_hex {digits : List Char} (all : ∀ digit ∈ digits, isHexDigit digit = true) :
    isName ('x' :: digits) = true :=
  continuesName_of_isAlphanum fun digit member => isAlphanum_of_isHexDigit (all digit member)

theorem EndsSequence.difference (ends : EndsSequence rest) : EndsDifference rest := by
  refine ⟨ends.1, fun minus => ?_⟩
  rcases ends.2 with closing | ⟨⟨char, more, same, opens⟩, -⟩
  · exact absurd (closing _ minus) (by decide)
  · rw [same] at minus
    obtain rfl : char = '-' := by simpa using minus
    exact absurd opens (by decide)

private theorem refuses_atom_of_parts (parts : ∀ part ∈ bracketed ++
      [.call "hex-char", .call "quoted-string", .call "any-char", .call "reference"],
      Refuses (depth + 3) part ahead) : Refuses (depth + 4) (.call "atom") ahead :=
  (refuses_first parts).call _ (by simp [rules, bracketed])

/-- No operand is there if no atom is. -/
theorem Refuses.quantified (atom : Refuses (depth + 4) (.call "atom") ahead) :
    Refuses (depth + 5) (.call "quantified") ahead :=
  atom.sequence.call _ (by simp [rules]; rfl)

private theorem refuses_reference (other : ∀ char ∈ ahead.head?, char.isAlpha = false) :
    Refuses (depth + 3) (.call "reference") ahead :=
  (refuses_name other).sequence.call _ (by simp [rules]; rfl)

theorem refuses_atom (other : ∀ char ∈ ahead.head?, opensAtom char = false) :
    Refuses (depth + 4) (.call "atom") ahead := by
  have signs : ∀ sign, opensAtom sign = true → ahead.head? ≠ some sign := by
    intro sign opens same
    rw [other sign same] at opens
    cases opens
  refine refuses_atom_of_parts ?_
  simp only [List.forall_mem_append, List.forall_mem_cons, List.not_mem_nil, false_imp_iff,
    implies_true, and_true]
  refine ⟨refuses_bracketed (signs _ rfl) (signs _ rfl) (signs _ rfl),
    refuses_hexChar_of_ne (signs _ rfl), refuses_quotedString (signs _ rfl) (signs _ rfl),
    refuses_anyChar (signs _ rfl), refuses_reference fun char member => ?_⟩
  by_contra alpha
  exact signs char (opensAtom_of_isAlpha (by simpa using alpha)) member

theorem refuses_quantified (other : ∀ char ∈ ahead.head?, opensAtom char = false) :
    Refuses (depth + 5) (.call "quantified") ahead :=
  (refuses_atom other).quantified

private theorem Refuses.difference (quantified : Refuses (depth + 5) (.call "quantified") ahead) :
    Refuses (depth + 7) (.call "difference") ahead :=
  (quantified.sequence.call _ (by simp [rules]; rfl) :
    Refuses (depth + 6) (.call "difference") ahead).mono (Nat.le_succ _)

theorem refuses_difference (other : ∀ char ∈ ahead.head?, opensAtom char = false) :
    Refuses (depth + 7) (.call "difference") ahead :=
  (refuses_quantified other).difference

/-- A number in brackets is no operand. -/
theorem refuses_quantified_of_number {char : Char} {tail : List Char}
    (number : (char.isDigit || char = '-') = true) :
    Refuses (depth + 5) (.call "quantified") ('[' :: char :: tail) := by
  have others : ∀ other : Char, (other.isDigit || other = '-') = false → char ≠ other := by
    rintro other distinct rfl
    rw [number] at distinct
    cases distinct
  have heads : ∀ other : Char, (other.isDigit || other = '-') = false →
      (char :: tail).head? ≠ some other :=
    fun other distinct same => others other distinct (by simpa using same)
  have look : Refuses (depth + 3) (.call "lookaround") ('[' :: char :: tail) := by
    refine refuses_lookaround_of_bracket (fun other member => ?_) (heads _ (by decide))
    obtain rfl : char = other := by simpa using member
    simp [isSpace, others ' ' (by decide), others '\t' (by decide)]
  have quoted : Refuses (depth + 1) (.call "quoted-char") (char :: tail) :=
    (((refuses_literal "'" '\'' rfl (heads _ (by decide))).sequence).both
      ((refuses_literal "\"" '"' rfl (heads _ (by decide))).sequence.both refuses_none)).call _
        (by simp [rules]; exact ⟨rfl, rfl⟩)
  have bound : Refuses (depth + 2) (.call "range-bound") (char :: tail) :=
    ((refuses_hexChar_of_ne (heads _ (by decide))).both (quoted.both refuses_none)).call _
      (by simp [rules])
  have range : Refuses (depth + 3) (.call "code-point-range") ('[' :: char :: tail) :=
    ((takes_literal "[" rfl : Takes _ _ ['['] (char :: tail) _).refuses bound.sequence).call _
      (by simp [rules]; rfl)
  refine (refuses_atom_of_parts ?_).quantified
  simp only [bracketed, List.forall_mem_append, List.forall_mem_cons, List.not_mem_nil,
    false_imp_iff, implies_true, and_true]
  exact ⟨⟨look, refuses_special (by simp), refuses_group (by simp), range⟩,
    refuses_hexChar_of_ne (by simp), refuses_quotedString (by simp) (by simp),
    refuses_anyChar (by simp), refuses_reference (by simp)⟩

/-- One space is taken before a character that is not ignored. -/
theorem takes_space {char : Char} {tail : List Char} (plain : opensIgnorable char = false) :
    Takes (depth + 3) (.call "s-ignorable") [' '] (char :: tail) (named "s-ignorable") :=
  takes_ignorable (.blank rfl .nil) (by simpa using plain)

end Dialect

end Bnf

end ParametricGrammar
