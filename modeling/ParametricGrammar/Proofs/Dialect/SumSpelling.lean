import ParametricGrammar.Proofs.Dialect.Arguments
import ParametricGrammar.Proofs.Dialect.Lookups
/-!
# How sums are spelled

Every tree of a sum spells one sum: terms behind signs, with spaces and tabs between them. The
numbers are in any decimal spelling, so a sum has many spellings, but a spelling has only one sum.
What the tree is gathered to is the sum, computed with the checks for its range.
-/

namespace ParametricGrammar

private theorem Formal.text_eq_of_ofText? {text : String} {formal : Formal}
    (found : ofText? text = some formal) : formal.text = text := by
  simpa using List.find?_some found

namespace Numeral

private theorem exists_digit? {digit : Char} (decimal : digit.isDigit = true) :
    ∃ value, digit? digit = some value ∧ value < 10 := by
  have range : '0' ≤ digit ∧ digit ≤ '9' := by simpa [Char.isDigit, Char.le_def] using decimal
  refine ⟨digit.toNat - '0'.toNat, if_pos range, ?_⟩
  have least := range.1
  have most := range.2
  rw [Char.le_def, UInt32.le_iff_toNat_le] at least most
  simp at least most ⊢
  omega

private theorem exists_extend? {digits : List Char} (all : ∀ digit ∈ digits, digit.isDigit = true)
    (value : ℕ) : ∃ result, extend? 10 value digits = some result := by
  induction digits generalizing value with
  | nil => exact ⟨value, rfl⟩
  | cons digit digits induction =>
      rw [List.forall_mem_cons] at all
      obtain ⟨added, reads, small⟩ := exists_digit? all.1
      obtain ⟨result, rest⟩ := induction all.2 (value * 10 + added)
      exact ⟨result, by simp [extend?, reads, small, rest]⟩

/-- Decimal digits are a number. -/
theorem exists_natural? {digits : List Char} (some : digits ≠ [])
    (all : ∀ digit ∈ digits, digit.isDigit = true) :
    ∃ magnitude, natural? 10 digits = .some magnitude := by
  rw [natural?_of_ne_nil some]
  exact exists_extend? all 0

end Numeral

namespace Bnf

namespace Dialect

variable {source : List Char} {chars rest : List Char} {trees : List Tree} {tree : Tree}

/-! ### Spellings -/

/-- A term is spelled as a name, or as decimal digits that may follow a minus. -/
inductive Term.Spells : Term → List Char → Prop where
  | formal (name : Formal) : Spells (.formal name) name.text.toList
  | number (minus : Bool) {digits : List Char} {magnitude : ℕ}
      (all : ∀ digit ∈ digits, digit.isDigit = true)
      (reads : Numeral.natural? 10 digits = some magnitude) :
      Spells (.number (if minus then -magnitude else magnitude))
        ((if minus then ['-'] else []) ++ digits)

/-- Further terms are spelled each behind its sign, with spaces around the sign. -/
inductive SpellsMore : List (Bool × Term) → List Char → Prop where
  | nil : SpellsMore [] []
  | cons {minus : Bool} {term : Term} {more : List (Bool × Term)}
      {before behind word later : List Char} (blankBefore : ∀ char ∈ before, isSpace char = true)
      (blankBehind : ∀ char ∈ behind, isSpace char = true) (spells : term.Spells word)
      (rest : SpellsMore more later) :
      SpellsMore ((minus, term) :: more)
        (before ++ (signChar minus :: (behind ++ (word ++ later))))

/-- A sum is spelled as its first term and the further ones. -/
def Total.Spells (total : Total) (chars : List Char) : Prop :=
  ∃ word later, chars = word ++ later ∧ total.first.Spells word ∧ SpellsMore total.more later

/-! ### A spelling has one sum -/

private theorem takeWhile_eq_of_append {may : Char → Bool} (all : ∀ char ∈ chars, may char = true)
    (ends : ∀ char ∈ rest.head?, may char = false) : (chars ++ rest).takeWhile may = chars := by
  rw [List.takeWhile_append_of_pos all]
  cases rest with
  | nil => simp
  | cons char rest => simp [ends char rfl]

/-- The longest run of a class before a text is one, whatever the class. -/
theorem run_unique {may : Char → Bool} {other behind : List Char}
    (all : ∀ char ∈ chars, may char = true) (ends : ∀ char ∈ rest.head?, may char = false)
    (allOther : ∀ char ∈ other, may char = true)
    (endsOther : ∀ char ∈ behind.head?, may char = false)
    (same : chars ++ rest = other ++ behind) : chars = other ∧ rest = behind := by
  have runs : chars = other := by
    rw [← takeWhile_eq_of_append all ends, same, takeWhile_eq_of_append allOther endsOther]
  subst runs
  exact ⟨rfl, List.append_cancel_left same⟩

namespace Term

/-- A term starts with a letter, a digit or a minus. -/
theorem Spells.exists_head {term : Term} (spells : term.Spells chars) :
    ∃ char more, chars = char :: more ∧ (char = '-' ∨ char.isAlphanum = true) := by
  cases spells with
  | formal name => cases name <;> exact ⟨_, _, rfl, .inr (by decide)⟩
  | @number minus digits magnitude all reads =>
      cases minus with
      | true => exact ⟨'-', digits, rfl, .inl rfl⟩
      | false =>
          cases digits with
          | nil => cases reads
          | cons digit digits =>
              exact ⟨digit, digits, rfl, .inr (by simp [Char.isAlphanum, all digit])⟩

private theorem isSpace_eq_false {char : Char} (head : char = '-' ∨ char.isAlphanum = true) :
    isSpace char = false := by
  rcases head with rfl | alnum
  · rfl
  · by_contra space
    simp only [isSpace, Bool.not_eq_false, Bool.or_eq_true, decide_eq_true_eq] at space
    rcases space with rfl | rfl <;> cases alnum

private theorem head_digits {digits : List Char} {magnitude : ℕ}
    (all : ∀ digit ∈ digits, digit.isDigit = true)
    (reads : Numeral.natural? 10 digits = some magnitude) :
    ∃ digit more, digits = digit :: more ∧ digit.isDigit = true ∧ digit ≠ '-' := by
  cases digits with
  | nil => cases reads
  | cons digit more =>
      have decimal : digit.isDigit = true := all digit List.mem_cons_self
      refine ⟨digit, more, rfl, decimal, ?_⟩
      rintro rfl
      cases decimal

/-- Before what no letter or digit continues, a text spells one term at most. -/
theorem Spells.unique {term other : Term} {word behind : List Char} (spells : term.Spells chars)
    (spellsOther : other.Spells word) (ends : ∀ char ∈ rest.head?, char.isAlphanum = false)
    (endsOther : ∀ char ∈ behind.head?, char.isAlphanum = false)
    (same : chars ++ rest = word ++ behind) : term = other ∧ chars = word ∧ rest = behind := by
  have plain : ∀ tail : List Char, (∀ char ∈ tail.head?, char.isAlphanum = false) →
      ∀ char ∈ tail.head?, char.isDigit = false :=
    fun _ ends char member => (Bool.or_eq_false_iff.mp (ends char member)).2
  cases spells with
  | formal name =>
      cases spellsOther with
      | formal second => cases name <;> cases second <;> simp_all [Formal.text]
      | number minus all reads =>
          obtain ⟨digit, more, rfl, decimal, -⟩ := head_digits all reads
          cases minus <;> cases name <;> simp [Formal.text] at same
          all_goals
            obtain ⟨rfl, -⟩ := same
            cases decimal
  | @number minus digits magnitude all reads =>
      obtain ⟨digit, more, split, decimal, apart⟩ := head_digits all reads
      cases spellsOther with
      | formal second =>
          rw [split] at same
          cases minus <;> cases second <;> simp [Formal.text] at same
          all_goals
            obtain ⟨rfl, -⟩ := same
            cases decimal
      | @number minusOther others size allOther readsOther =>
          obtain ⟨first, later, splitOther, -, apartOther⟩ := head_digits allOther readsOther
          have signs : minus = minusOther := by
            rw [split, splitOther] at same
            cases minus <;> cases minusOther <;> simp at same
            · rfl
            · exact absurd same.1 apart
            · exact absurd same.1.symm apartOther
            · rfl
          subst signs
          rw [List.append_assoc, List.append_assoc] at same
          obtain ⟨rfl, rfl⟩ := run_unique all (plain _ ends) allOther (plain _ endsOther)
            (List.append_cancel_left same)
          obtain rfl : magnitude = size := Option.some.inj (reads.symm.trans readsOther)
          exact ⟨rfl, rfl, rfl⟩

end Term

private theorem isSpace_signChar (minus : Bool) : isSpace (signChar minus) = false := by
  cases minus <;> rfl

/-- No letter or digit stands before further terms. -/
theorem SpellsMore.head {more : List (Bool × Term)} (spells : SpellsMore more chars) :
    ∀ char ∈ chars.head?, char.isAlphanum = false := by
  cases spells with
  | nil => simp
  | @cons minus term more before behind word later blank _ _ _ =>
      cases before with
      | nil =>
          intro char member
          obtain rfl : signChar minus = char := by simpa using member
          cases minus <;> rfl
      | cons space before =>
          intro char member
          obtain rfl : space = char := by simpa using member
          have blank : isSpace space = true := blank space List.mem_cons_self
          simp only [isSpace, Bool.or_eq_true, decide_eq_true_eq] at blank
          rcases blank with rfl | rfl <;> rfl

private theorem Term.Spells.head_ne_space {term : Term} (spells : term.Spells chars) :
    ∀ char ∈ (chars ++ rest).head?, isSpace char = false := by
  intro char member
  obtain ⟨first, more, rfl, head⟩ := spells.exists_head
  obtain rfl : first = char := by simpa using member
  exact isSpace_eq_false head

private theorem SpellsMore.unique {more others : List (Bool × Term)}
    (spells : SpellsMore more chars) (spellsOther : SpellsMore others chars) : more = others := by
  induction spells generalizing others with
  | nil =>
      generalize none : ([] : List Char) = text at spellsOther
      cases spellsOther with
      | nil => rfl
      | cons _ _ _ _ => simp at none
  | @cons minus term more before behind word later blank between spells rest induction =>
      generalize same : before ++ (signChar minus :: (behind ++ (word ++ later))) = text
        at spellsOther
      cases spellsOther with
      | nil => simp at same
      | @cons sign other others front back spelled tail blankOther betweenOther spellsTerm
          spellsRest =>
          obtain ⟨rfl, signed⟩ := run_unique blank (by simp [isSpace_signChar]) blankOther
            (by simp [isSpace_signChar]) same
          obtain ⟨signs, gaps⟩ := List.cons.inj signed
          obtain rfl : minus = sign := by cases minus <;> cases sign <;> first | rfl | cases signs
          obtain ⟨rfl, words⟩ := run_unique between spells.head_ne_space betweenOther
            spellsTerm.head_ne_space gaps
          obtain ⟨rfl, rfl, rfl⟩ := spells.unique spellsTerm rest.head spellsRest.head words
          rw [induction spellsRest]

/-- A text spells one sum at most. -/
theorem Total.Spells.unique {total other : Total} (spells : total.Spells chars)
    (spellsOther : other.Spells chars) : total = other := by
  obtain ⟨word, later, rfl, first, more⟩ := spells
  obtain ⟨spelled, tail, same, firstOther, moreOther⟩ := spellsOther
  obtain ⟨head, rfl, rfl⟩ := first.unique firstOther more.head moreOther.head same
  have tails := more.unique moreOther
  obtain ⟨_, _⟩ := total
  obtain ⟨_, _⟩ := other
  cases head
  cases tails
  rfl

/-! ### What trees are gathered to -/

private theorem integer?_of_digits (minus : Bool) {digits : List Char} {magnitude : ℕ}
    (all : ∀ digit ∈ digits, digit.isDigit = true)
    (reads : Numeral.natural? 10 digits = some magnitude) :
    Numeral.integer? ((if minus then ['-'] else []) ++ digits) =
      some (if minus then -(magnitude : Int) else magnitude) := by
  cases minus with
  | true => simp [Numeral.integer?, reads]
  | false =>
      obtain ⟨digit, more, rfl, -, apart⟩ := Term.head_digits all reads
      simp only [Bool.false_eq_true, if_false, List.nil_append]
      unfold Numeral.integer?
      split
      · rename_i same
        exact absurd (List.cons.inj same).1 apart
      · rw [reads]
        rfl

/-- The tree of a term adds the term that it spells. -/
theorem Yields.term (yields : Yields source (.call "param-term") chars rest trees) :
    ∃ term part, trees = [part] ∧ part.name = "param-term" ∧ Term.Spells term chars ∧
      term.Stands source part := by
  obtain ⟨tree, rfl, kind, -, inside⟩ := yields.inside (by simp [rules]; rfl)
  rcases yields_first_cons.mp inside with name | ⟨-, other⟩
  · obtain ⟨part, only, named, written, -⟩ := name.inside (by simp [rules]; rfl)
    have parsed : Parsed source part := ⟨chars, rest, by rw [named, ← only]; exact name⟩
    obtain ⟨formal, found⟩ := parsed.formal? named
    have spelled : formal.text = part.text source := Formal.text_eq_of_ofText? found
    have same : chars = formal.text.toList := by
      rw [spelled, text_of_slice? written, String.toList_ofList]
    have child : tree.child? "param-variable" = some part := by simp [Tree.child?, only, named]
    exact ⟨.formal formal, tree, rfl, kind, same ▸ .formal formal,
      stands_formal child spelled.symm⟩
  · rcases yields_first_cons.mp other with decimal | ⟨-, none⟩
    · obtain ⟨part, only, named, written, digits⟩ := decimal.inside (by simp [rules]; rfl)
      obtain ⟨sign, run, _, _, rfl, -, signs, tail⟩ := yields_sequence_cons.mp digits
      obtain ⟨_, _, _, _, rfl, -, number, last⟩ := yields_sequence_cons.mp tail
      obtain ⟨rfl, -⟩ := yields_sequence_nil.mp last
      obtain ⟨some, all⟩ := number.run (@letter_digit 0)
      obtain ⟨magnitude, reads⟩ := Numeral.exists_natural? some all
      obtain ⟨minus, rfl⟩ : ∃ minus : Bool, sign = if minus then ['-'] else [] := by
        rcases yields_optional.mp signs with present | ⟨-, rfl, -⟩
        · obtain ⟨rfl, -⟩ := yields_literal.mp present
          exact ⟨true, rfl⟩
        · exact ⟨false, rfl⟩
      rw [List.append_nil] at *
      refine ⟨_, tree, rfl, kind, .number minus all reads, ?_⟩
      exact stands_number (by simp [Tree.child?, only, named])
        (by simp [Tree.child?, only, named] : tree.child? "decimal" = Option.some part)
        (text_of_slice? written) (integer?_of_digits minus all reads)
    · cases none

private theorem Yields.spaces (yields : Yields source spaces chars rest trees) :
    (∀ char ∈ chars, isSpace char = true) ∧ named "s-space" source trees := by
  refine yields.repetition (motive := fun chars _ trees =>
    (∀ char ∈ chars, isSpace char = true) ∧ named "s-space" source trees) ?_ ?_ ?_
  · exact fun _ _ => ⟨by simp, by simp [named]⟩
  · intro rest trees once
    obtain ⟨_, none, -⟩ := (@letter_space 0).matched once.matched
    cases none
  · intro left right rest before behind head tail
    obtain ⟨char, rfl, space⟩ := (@letter_space 0).matched head.matched
    obtain ⟨tree, rfl, kind, -⟩ := head.inside (by simp [rules]; rfl)
    refine ⟨?_, ?_⟩
    · rw [List.singleton_append, List.forall_mem_cons]
      exact ⟨space, tail.1⟩
    · intro part member
      rcases List.mem_cons.mp member with rfl | later
      · exact kind
      · exact tail.2 part later

private theorem Yields.operator (yields : Yields source (.call "sum-operator") chars rest trees) :
    ∃ minus part, chars = [signChar minus] ∧ trees = [part] ∧ part.name = "sum-operator" ∧
      WrittenAs [signChar minus] source part := by
  obtain ⟨part, rfl, kind, written, inside⟩ := yields.inside (by simp [rules]; rfl)
  have texts := text_of_slice? written
  rcases yields_first_cons.mp inside with plus | ⟨-, other⟩
  · obtain ⟨rfl, -⟩ := yields_literal.mp plus
    exact ⟨false, part, rfl, rfl, kind, texts⟩
  · rcases yields_first_cons.mp other with minus | ⟨-, none⟩
    · obtain ⟨rfl, -⟩ := yields_literal.mp minus
      exact ⟨true, part, rfl, rfl, kind, texts⟩
    · cases none

/-- Further terms are gathered as they are spelled, wherever they stand. -/
theorem Yields.addends (yields : Yields source (.zeroOrMore addend) chars rest trees) :
    ∃ more, SpellsMore more chars ∧ ∀ whole sum sign,
      (gather source whole sum sign trees).toOption = addAll? more sum := by
  have step : ∀ {chars rest trees}, Yields source addend chars rest trees →
      ∃ minus term before behind word, chars = before ++ (signChar minus :: (behind ++ word)) ∧
        (∀ char ∈ before, isSpace char = true) ∧ (∀ char ∈ behind, isSpace char = true) ∧
        Term.Spells term word ∧ ∀ whole sum sign more,
          (gather source whole sum sign (trees ++ more)).toOption =
            (term.add? sum (if minus then -1 else 1)).bind fun next =>
              (gather source whole next (if minus then -1 else 1) more).toOption := by
    intro chars rest trees once
    obtain ⟨before, _, blanks, _, rfl, rfl, first, tail⟩ := yields_sequence_cons.mp once
    obtain ⟨_, _, _, _, rfl, rfl, operator, tail⟩ := yields_sequence_cons.mp tail
    obtain ⟨behind, _, gaps, _, rfl, rfl, second, tail⟩ := yields_sequence_cons.mp tail
    obtain ⟨word, _, _, _, rfl, rfl, last, nothing⟩ := yields_sequence_cons.mp tail
    obtain ⟨rfl, rfl⟩ := yields_sequence_nil.mp nothing
    obtain ⟨blank, spaces⟩ := first.spaces
    obtain ⟨between, others⟩ := second.spaces
    obtain ⟨minus, sign, rfl, rfl, kind, written⟩ := operator.operator
    obtain ⟨term, part, rfl, kindTerm, spells, reads⟩ := last.term
    refine ⟨minus, term, before, behind, word, by simp, blank, between, spells, ?_⟩
    intro whole sum first more
    simp only [List.append_assoc, List.cons_append, List.nil_append, gather_spaces spaces,
      gather_operator kind written, gather_spaces others]
    exact toOption_gather_term kindTerm reads
  refine yields.repetition (motive := fun chars _ trees => ∃ more, SpellsMore more chars ∧
    ∀ whole sum sign, (gather source whole sum sign trees).toOption = addAll? more sum) ?_ ?_ ?_
  · exact fun _ _ => ⟨[], .nil, fun _ _ _ => rfl⟩
  · intro rest trees once
    obtain ⟨_, _, before, _, _, none, -⟩ := step once
    simp at none
  · intro left right rest front back head ⟨more, spellsMore, gathers⟩
    obtain ⟨minus, term, before, behind, word, rfl, blank, between, spells, adds⟩ := step head
    refine ⟨(minus, term) :: more, ?_, fun whole sum sign => ?_⟩
    · simpa using SpellsMore.cons blank between spells spellsMore
    · rw [adds]
      simp only [gathers]
      rfl

/-- The tree of a sum spells one sum, and is gathered to it. -/
theorem Parsed.total (parsed : Parsed source tree) (kind : tree.name = "param-sum") :
    ∃ total chars, slice? source tree.start tree.stop = some chars ∧ Total.Spells total chars ∧
      total.Stands source tree := by
  obtain ⟨chars, rest, written, -, yields⟩ := parsed.yields kind rfl
  obtain ⟨word, _, _, _, rfl, content, head, tail⟩ := yields_sequence_cons.mp yields
  obtain ⟨later, _, _, _, rfl, rfl, further, nothing⟩ := yields_sequence_cons.mp tail
  obtain ⟨rfl, rfl⟩ := yields_sequence_nil.mp nothing
  obtain ⟨first, part, rfl, kindTerm, spells, reads⟩ := head.term
  obtain ⟨more, spellsMore, gathers⟩ := further.addends
  refine ⟨⟨first, more⟩, _, written, ⟨word, later, by simp, spells, spellsMore⟩, ?_⟩
  rw [Total.Stands, sumOf, content, List.append_nil, List.singleton_append,
    toOption_gather_term kindTerm reads]
  simp only [gathers]
  rfl

end Dialect

end Bnf

end ParametricGrammar
