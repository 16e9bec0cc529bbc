import ParametricGrammar.Proofs.Dialect.Clauses
import ParametricGrammar.Proofs.Numerals
/-!
# Parameters of grammar texts

Sums, arguments, heads, counts and section numbers as the dialect reads them. Their trees are
translated to what they were written for, and to nothing at all if a number is out of range.
-/

namespace ParametricGrammar

namespace Bnf

namespace Dialect

variable {depth : ℕ} {name : String} {rest : List Char} {source : List Char} {tree : Tree}

theorem WrittenAs.text {text : String} (written : WrittenAs text.toList source tree) :
    tree.text source = text :=
  written.trans String.ofList_toList

/-! ### Words -/

/-- Whether two texts differ at a place that both have. -/
def differ (left right : String) : Bool :=
  (left.toList.zip right.toList).any fun pair => pair.1 ≠ pair.2

private theorem any_ne_zip_of_prefix {left right : List Char} (before : left <+: right ++ rest) :
    ((left.zip right).any fun pair => pair.1 ≠ pair.2) = false := by
  induction left generalizing right with
  | nil => rfl
  | cons char left induction =>
      cases right with
      | nil => rfl
      | cons other right =>
          obtain ⟨same, later⟩ := List.cons_prefix_cons.mp before
          rw [List.zip_cons_cons, List.any_cons, induction later, same]
          simp

private theorem not_prefix_of_differ {left right : String} (differs : differ left right = true) :
    ¬ left.toList <+: right.toList ++ rest := by
  intro before
  rw [differ, any_ne_zip_of_prefix before] at differs
  cases differs

/-- A choice of words that differ from each other takes each of them. -/
theorem takes_word {words : List String} {word : String} (member : word ∈ words)
    (apart : ∀ other ∈ words, other ≠ word → differ other word = true) :
    Takes depth (.first (words.map .literal)) word.toList rest silent := by
  induction words with
  | nil => cases member
  | cons first words induction =>
      by_cases here : first = word
      · exact here ▸ (takes_literal first rfl).first
      · have later : word ∈ words := (List.mem_cons.mp member).resolve_left (Ne.symm here)
        have other : ¬ first.toList <+: word.toList ++ rest :=
          not_prefix_of_differ (apart first List.mem_cons_self here)
        exact (refuses_other_literal other).orElse
          (induction later fun other found => apart other (.tail _ found))

/-- A production for words takes each of them before what cannot continue it. -/
theorem takes_word_call (words : List String) {word : String} {stop : Node}
    (rule : (name, .sequence [.first (words.map .literal), .notAhead stop]) ∈ rules)
    (member : word ∈ words) (apart : ∀ other ∈ words, other ≠ word → differ other word = true)
    (ends : Refuses depth stop rest) :
    Takes (depth + 1) (.call name) word.toList rest (one name (WrittenAs word.toList)) := by
  have row : Takes depth _ (word.toList ++ []) rest _ :=
    (takes_word member apart).andThen ends.notAhead.last
  rw [List.append_nil] at row
  exact (row.call name rule).written

/-- A production for words refuses what starts with none of them. -/
theorem refuses_word_call (words : List String) {stop : Node} {ahead : List Char}
    (rule : (name, .sequence [.first (words.map .literal), .notAhead stop]) ∈ rules)
    (none : ∀ word ∈ words, ¬ word.toList <+: ahead) : Refuses (depth + 1) (.call name) ahead := by
  refine (refuses_first fun node member => ?_).sequence.call name rule
  obtain ⟨word, among, rfl⟩ := List.mem_map.mp member
  exact refuses_other_literal (none word among)

private theorem takes_variable (formal : Formal)
    (ends : ∀ char ∈ rest.head?, char.isAlphanum = false) :
    Takes (depth + 3) (.call "param-variable") formal.text.toList rest
      (one "param-variable" (WrittenAs formal.text.toList)) :=
  takes_word_call (Formal.all.map Formal.text) (by simp [rules, Formal.all, Formal.text])
    (by cases formal <;> decide) (by cases formal <;> decide) (letter_alnum.refuses ends)

private theorem takes_decimal (value : Int) (ends : ∀ char ∈ rest.head?, char.isDigit = false) :
    Takes (depth + 2) (.call "decimal") (Numeral.signed value).toList rest
      (one "decimal" (WrittenAs (Numeral.signed value).toList)) := by
  rw [Numeral.toList_signed]
  obtain ⟨digit, more, same, all⟩ := Numeral.exists_cons_toDigits value.natAbs
  rw [same]
  have digits : Takes (depth + 1) (.oneOrMore (.call "digit")) (digit :: more) rest anything :=
    letter_digit.oneOrMore (gathers_named _) all ends
  have sign : Takes (depth + 1) (.optional (.literal "-")) (if value < 0 then ['-'] else [])
      (digit :: more ++ rest) silent := by
    split
    · exact (takes_literal "-" rfl).optional
    · refine (refuses_literal "-" '-' rfl fun minus => ?_).optional
      obtain rfl : digit = '-' := by simpa using minus
      cases all _ List.mem_cons_self
  exact ((sign.andThen digits.last).call "decimal" (by simp [rules])).written

/-! ### Sums -/

/-- A term of a sum. -/
inductive Term where
  | formal (name : Formal)
  | number (value : Int)

namespace Term

/-- How a term is written. -/
def chars : Term → List Char
  | formal name => name.text.toList
  | number value => (Numeral.signed value).toList

/-- A sum with a term added to it. -/
def add (sum : Sum) (sign : Int) : Term → Sum
  | formal name => sum.addFormal sign name
  | number value => { sum with constant := sum.constant + value * sign, terms := sum.terms + 1 }

/-- A sum with a term added to it, unless a number leaves the range of 32 bits. -/
def add? (sum : Sum) (sign : Int) : Term → Option Sum
  | formal name => some (sum.addFormal sign name)
  | number value => (Numeral.int32? value).bind fun _ => sum.addNumber? sign value

/-- A tree adds a term to any sum. -/
def Stands (term : Term) : Dialect.Stands := fun source tree =>
  ∀ whole sum sign, (addTerm source whole sum sign tree).toOption = term.add? sum sign

private theorem add_of_add? {term : Term} {sum next : Sum} {sign : Int}
    (adds : term.add? sum sign = some next) : term.add sum sign = next := by
  cases term with
  | formal name => exact Option.some.inj adds
  | number value =>
      obtain ⟨_, -, adds⟩ := Option.bind_eq_some_iff.mp adds
      unfold Sum.addNumber? at adds
      split at adds
      · exact Option.some.inj adds
      · cases adds

end Term

private theorem isAlpha_of_isDigit {char : Char} (digit : char.isDigit = true) :
    char.isAlpha = false := by
  simp only [Char.isDigit, Bool.and_eq_true, decide_eq_true_eq, ge_iff_le,
    UInt32.le_iff_toNat_le] at digit
  simp only [isAlpha_eq, Bool.or_eq_false_iff, Bool.and_eq_false_iff, decide_eq_false_iff_not,
    Char.le_def, UInt32.le_iff_toNat_le]
  simp at digit ⊢
  omega

/-- A number does not start with a word. -/
theorem not_prefix_number {word : String} {value : Int}
    (letter : word.toList.head?.any Char.isAlpha = true) :
    ¬ word.toList <+: (Numeral.signed value).toList ++ rest := by
  obtain ⟨char, more, same, head⟩ := Numeral.exists_head_signed value
  rw [same]
  cases split : word.toList with
  | nil => simp [split] at letter
  | cons first others =>
      intro before
      obtain rfl : first = char := (List.cons_prefix_cons.mp before).1
      have alpha : first.isAlpha = true := by simpa [split] using letter
      rcases head with digit | rfl
      · rw [isAlpha_of_isDigit digit] at alpha
        cases alpha
      · cases alpha

private theorem toOption_decimalValue {value : Int} {text : List Char}
    (written : tree.text source = String.ofList text) (reads : Numeral.integer? text = some value) :
    (decimalValue source tree).toOption = (Numeral.int32? value).map fun _ => value := by
  simp only [decimalValue, written, String.toList_ofList, reads, Option.bind_some]
  cases Numeral.int32? value <;> rfl

/-- A name stands for itself wherever it is added. -/
theorem stands_formal {formal : Formal} {part : Tree}
    (found : tree.child? "param-variable" = some part)
    (written : part.text source = formal.text) : (Term.formal formal).Stands source tree := by
  intro whole sum sign
  simp only [addTerm, found, written, Formal.ofText?_text]
  rfl

theorem stands_number {value : Int} {part : Tree} {text : List Char}
    (other : tree.child? "param-variable" = none) (found : tree.child? "decimal" = some part)
    (written : part.text source = String.ofList text) (reads : Numeral.integer? text = some value) :
    (Term.number value).Stands source tree := by
  intro whole sum sign
  have number := toOption_decimalValue written reads
  simp only [addTerm, other, Tree.required, found]
  cases ranged : Numeral.int32? value with
  | none =>
      cases decimal : decimalValue source part with
      | error error => simp [Term.add?, ranged, decimal, bind, Except.bind, Except.toOption]
      | ok found => simp [decimal, ranged, Except.toOption] at number
  | some _ =>
      cases decimal : decimalValue source part with
      | error error => simp [decimal, ranged, Except.toOption] at number
      | ok found =>
          obtain rfl : found = value := by simpa [decimal, ranged, Except.toOption] using number
          simp only [Term.add?, ranged, decimal, bind, Except.bind, Option.bind_some]
          cases sum.addNumber? sign found <;> rfl

private theorem takes_term (term : Term) (ends : ∀ char ∈ rest.head?, char.isAlphanum = false) :
    Takes (depth + 4) (.call "param-term") term.chars rest (one "param-term" term.Stands) := by
  cases term with
  | formal formal =>
      refine ((takes_variable formal ends).first.call "param-term"
        (by simp [rules]; rfl)).translate fun source tree _ _ inside => ?_
      obtain ⟨part, only, named, written⟩ := inside
      have found : tree.child? "param-variable" = some part := by simp [Tree.child?, only, named]
      exact stands_formal found written.text
  | number value =>
      have noVariable : Refuses (depth + 3) (.call "param-variable")
          ((Numeral.signed value).toList ++ rest) := by
        refine refuses_word_call (Formal.all.map Formal.text)
          (by simp [rules, Formal.all, Formal.text]; rfl) fun word member => ?_
        refine not_prefix_number ?_
        revert word
        decide
      have digits : ∀ char ∈ rest.head?, char.isDigit = false := fun char member =>
        (Bool.or_eq_false_iff.mp (ends char member)).2
      refine ((noVariable.orElse (takes_decimal value digits).first).call "param-term"
        (by simp [rules]; rfl)).translate fun source tree _ _ inside => ?_
      obtain ⟨part, only, named, written⟩ := inside
      have found : tree.child? "decimal" = some part := by simp [Tree.child?, only, named]
      exact stands_number (by simp [Tree.child?, only, named]) found written
        (Numeral.integer?_signed value)

/-- A sum ends where a sign closes it. -/
def EndsSum (rest : List Char) : Prop :=
  ∃ sign tail, rest = sign :: tail ∧ sign ∈ [',', ')', '}']

private theorem EndsSum.head (ends : EndsSum rest) : ∀ char ∈ rest.head?, char.isAlphanum = false ∧
    isJoiner char = false ∧ isSpace char = false := by
  obtain ⟨sign, tail, rfl, member⟩ := ends
  simp only [List.mem_cons, List.not_mem_nil, or_false] at member
  rcases member with rfl | rfl | rfl <;> simp <;> decide

/-- The sign before a further term. -/
def signChar (minus : Bool) : Char := if minus then '-' else '+'

/-- How further terms of a sum are written, each behind its sign. -/
def addends (more : List (Bool × Term)) : List Char :=
  more.flatMap fun addend => signChar addend.1 :: addend.2.chars

theorem addends_append (left right : List (Bool × Term)) :
    addends (left ++ right) = addends left ++ addends right :=
  List.flatMap_append

/-- A sum with further terms added to it or taken away. -/
def addAll (more : List (Bool × Term)) (sum : Sum) : Sum :=
  more.foldl (fun sum addend => addend.2.add sum (if addend.1 then -1 else 1)) sum

/-- A sum with further terms added to it or taken away, unless a number leaves the range. -/
def addAll? (more : List (Bool × Term)) (sum : Sum) : Option Sum :=
  more.foldlM (fun sum addend => addend.2.add? sum (if addend.1 then -1 else 1)) sum

private theorem addAll_of_addAll? {more : List (Bool × Term)} {sum next : Sum}
    (adds : addAll? more sum = some next) : addAll more sum = next := by
  induction more generalizing sum with
  | nil => exact Option.some.inj adds
  | cons addend more induction =>
      rw [addAll?, List.foldlM_cons] at adds
      obtain ⟨middle, first, later⟩ := Option.bind_eq_some_iff.mp adds
      rw [addAll, List.foldl_cons, Term.add_of_add? first]
      exact induction later

/-- A sum: a term, and further terms that are added or taken away. -/
structure Total where
  first : Term
  more : List (Bool × Term) := []

namespace Total

/-- How a sum is written. -/
def chars (total : Total) : List Char := total.first.chars ++ addends total.more

/-- The coefficients of a sum. -/
def sum (total : Total) : Sum := addAll total.more (total.first.add {} 1)

/-- The coefficients of a sum, unless a number leaves the range of 32 bits on the way. -/
def sum? (total : Total) : Option Sum :=
  (total.first.add? {} 1).bind (addAll? total.more)

theorem sum_of_sum? {total : Total} {sum : Sum} (found : total.sum? = some sum) :
    total.sum = sum := by
  obtain ⟨middle, first, later⟩ := Option.bind_eq_some_iff.mp found
  rw [Total.sum, Term.add_of_add? first]
  exact addAll_of_addAll? later

/-- A tree is gathered to a sum. -/
def Stands (total : Total) : Dialect.Stands := fun source tree =>
  (sumOf source tree).toOption = total.sum?

end Total

/-- Trees that change the coefficients of any sum before them. -/
def Adds (step : Sum → Option Sum) : Leaves := fun source trees =>
  ∀ whole sum sign more, ∃ later, (gather source whole sum sign (trees ++ more)).toOption =
    (step sum).bind fun next => (gather source whole next later more).toOption

private theorem adds_nothing : Adds some source [] :=
  fun _ _ sign _ => ⟨sign, rfl⟩

private theorem Adds.append {left right : Sum → Option Sum} {before behind : List Tree}
    (adds : Adds left source before) (later : Adds right source behind) :
    Adds (fun sum => (left sum).bind right) source (before ++ behind) := by
  intro whole sum sign more
  obtain ⟨middle, first⟩ := adds whole sum sign (behind ++ more)
  rw [List.append_assoc, first]
  dsimp only
  cases left sum with
  | none => exact ⟨sign, rfl⟩
  | some next => exact later whole next middle more

theorem gather_spaces {whole : Tree} {sum : Sum} {sign : Int} {spaces more : List Tree}
    (blank : named "s-space" source spaces) :
    gather source whole sum sign (spaces ++ more) = gather source whole sum sign more := by
  induction spaces with
  | nil => rfl
  | cons space spaces induction =>
      have kind : space.name = "s-space" := blank space List.mem_cons_self
      rw [List.cons_append, gather]
      simp only [kind, String.reduceEq, if_false]
      exact induction fun other member => blank other (.tail _ member)

/-- A term among the parts of a sum is added, and what comes behind it is gathered from there. -/
theorem toOption_gather_term {term : Term} {whole part : Tree} {sum : Sum} {sign : Int}
    {more : List Tree} (kind : part.name = "param-term") (stands : term.Stands source part) :
    (gather source whole sum sign (part :: more)).toOption =
      (term.add? sum sign).bind fun next => (gather source whole next sign more).toOption := by
  rw [gather, ← stands whole sum sign]
  simp only [kind, String.reduceEq, if_false, if_true]
  cases addTerm source whole sum sign part <;> rfl

theorem gather_operator {whole part : Tree} {sum : Sum} {sign : Int} {more : List Tree}
    {minus : Bool} (kind : part.name = "sum-operator")
    (written : WrittenAs [signChar minus] source part) :
    gather source whole sum sign (part :: more) =
      gather source whole sum (if minus then -1 else 1) more := by
  rw [gather]
  rw [WrittenAs] at written
  simp only [kind, if_true, written]
  cases minus <;> rfl

/-- What takes a further term of a sum. -/
def addend : Node :=
  .sequence [spaces, .call "sum-operator", spaces, .call "param-term"]

private theorem takes_gap (other : ∀ char ∈ rest.head?, isSpace char = false) :
    Takes (depth + 1) spaces [] rest (named "s-space") :=
  letter_space.zeroOrMore (gathers_named _) (by simp) other

private theorem Term.head_ne_space (term : Term) :
    ∀ char ∈ (term.chars ++ rest).head?, isSpace char = false := by
  cases term with
  | formal name => cases name <;> simp [chars, Formal.text, isSpace]
  | number value =>
      obtain ⟨char, more, same, head⟩ := Numeral.exists_head_signed value
      rw [chars, same]
      intro other member
      obtain rfl : char = other := by simpa using member
      rcases head with digit | rfl
      · by_contra space
        simp only [isSpace, Bool.not_eq_false, Bool.or_eq_true, decide_eq_true_eq] at space
        rcases space with rfl | rfl <;> cases digit
      · rfl

private theorem takes_addend (minus : Bool) (term : Term)
    (ends : ∀ char ∈ rest.head?, char.isAlphanum = false) :
    Takes (depth + 4) addend (signChar minus :: term.chars) rest
      (Adds fun sum => term.add? sum (if minus then -1 else 1)) := by
  have operator : Takes (depth + 4) (.call "sum-operator") [signChar minus]
      (term.chars ++ rest) (one "sum-operator" (WrittenAs [signChar minus])) := by
    cases minus with
    | true =>
        have plus : Refuses (depth + 3) (.literal "+") (['-'] ++ (term.chars ++ rest)) :=
          refuses_literal "+" '+' rfl (by simp)
        exact ((plus.orElse (takes_literal "-" rfl).first).call _ (by simp [rules]; rfl)).written
    | false => exact ((takes_literal "+" rfl).first.call _ (by simp [rules]; rfl)).written
  have row : Takes (depth + 4) addend ([] ++ ([signChar minus] ++ ([] ++ term.chars))) rest _ :=
    (takes_gap (by cases minus <;> simp [signChar, isSpace])).andThen
      (operator.andThen ((takes_gap term.head_ne_space).andThen (takes_term term ends).last))
  refine row.imp fun source trees holds => ?_
  obtain ⟨before, _, rfl, blank, _, _, rfl, ⟨sign, rfl, kind, written⟩, between, _, rfl, blank',
    part, rfl, kind', stands⟩ := holds
  intro whole sum first more
  simp only [List.append_assoc, List.cons_append, List.nil_append, gather_spaces blank,
    gather_operator kind written, gather_spaces blank']
  exact ⟨_, toOption_gather_term kind' stands⟩

private theorem refuses_addend (ends : EndsSum rest) : Refuses (depth + 4) addend rest := by
  have operator : Refuses (depth + 4) (.call "sum-operator") rest := by
    refine ((refuses_literal "+" '+' rfl fun plus => ?_).both
      ((refuses_literal "-" '-' rfl fun minus => ?_).both refuses_none)).call _ (by simp [rules])
    · cases (ends.head _ plus).2.1
    · cases (ends.head _ minus).2.1
  exact (takes_gap fun char member => (ends.head char member).2.2).refuses operator.sequence

private theorem head_addends (more : List (Bool × Term)) (ends : EndsSum rest) :
    ∀ char ∈ (addends more ++ rest).head?, char.isAlphanum = false := by
  cases more with
  | nil => exact fun char member => (ends.head char member).1
  | cons addend more =>
      intro char member
      obtain rfl : signChar addend.1 = char := by simpa [addends] using member
      cases addend.1 <;> rfl

private theorem takes_addends (more : List (Bool × Term)) (ends : EndsSum rest) :
    Takes (depth + 4) (.zeroOrMore addend) (addends more) rest (Adds (addAll? more)) := by
  induction more with
  | nil =>
      refine (refuses_addend ends).zeroOrMore.imp fun source trees none => ?_
      obtain rfl : trees = [] := none
      exact adds_nothing
  | cons addend more induction =>
      have head : Takes (depth + 4) _ _ (addends more ++ rest) _ :=
        takes_addend addend.1 addend.2 (head_addends more ends)
      refine (head.zeroOrMore (by simp) induction).imp fun source trees holds => ?_
      obtain ⟨before, behind, rfl, first, later⟩ := holds
      exact first.append later

private theorem takes_sum (total : Total) (ends : EndsSum rest) :
    Takes (depth + 5) (.call "param-sum") total.chars rest (one "param-sum" total.Stands) := by
  have row : Takes (depth + 4) _ total.chars rest _ :=
    (takes_term total.first (head_addends total.more ends)).andThen
      (takes_addends total.more ends).last
  refine (row.call "param-sum" (by simp [rules, addend])).translate
    fun source tree _ _ inside => ?_
  obtain ⟨_, later, split, ⟨part, rfl, kind, stands⟩, adds⟩ := inside
  have gathered : ∀ next, (gather source tree next 1 later).toOption = addAll? total.more next := by
    intro next
    obtain ⟨_, rest⟩ := adds tree next 1 []
    rw [List.append_nil] at rest
    rw [rest]
    cases addAll? total.more next <;> rfl
  rw [Total.Stands, sumOf, split, List.singleton_append, toOption_gather_term kind stands]
  simp only [gathered]
  rfl

/-! ### Parameters -/

/-- A parameter: the name of a context or a chomping behaviour, the context inside a flow
collection, or a sum. -/
inductive Parameter where
  | context (value : Context)
  | chomping (value : Chomping)
  | inFlow
  | sum (total : Total)

namespace Parameter

/-- How a parameter is written. -/
def chars : Parameter → List Char
  | context value => value.text.toList
  | chomping value => value.text.toList
  | inFlow => "in-flow(".toList ++ (['c'] ++ [')'])
  | sum total => total.chars

/-- The production that a parameter is read with. -/
def kind : Parameter → String
  | context _ => "context-value"
  | chomping _ => "chomping-value"
  | inFlow => "in-flow"
  | sum _ => "param-sum"

/-- What the tree of that production stands for. -/
def Inner : Parameter → Dialect.Stands
  | context value => WrittenAs value.text.toList
  | chomping value => WrittenAs value.text.toList
  | inFlow => fun source tree =>
      ∃ part, tree.child? "param-variable" = some part ∧ WrittenAs ['c'] source part
  | sum total => total.Stands

/-- A tree is that of a parameter. -/
def Stands (parameter : Parameter) : Dialect.Stands := Sole parameter.kind parameter.Inner

end Parameter

private theorem refuses_nameChar (ends : EndsSum rest) :
    Refuses (depth + 3) (.call "name-char") rest :=
  letter_nameChar.refuses fun char member => by
    simp [(ends.head char member).1, (ends.head char member).2.1]

private theorem takes_contextValue (value : Context) (ends : EndsSum rest) :
    Takes (depth + 4) (.call "context-value") value.text.toList rest
      (one "context-value" (WrittenAs value.text.toList)) :=
  takes_word_call (Context.all.map Context.text)
    (by simp [rules, Context.all, Context.text]) (by cases value <;> decide)
    (by cases value <;> decide) (refuses_nameChar ends)

private theorem takes_chompingValue (value : Chomping) (ends : EndsSum rest) :
    Takes (depth + 4) (.call "chomping-value") value.text.toList rest
      (one "chomping-value" (WrittenAs value.text.toList)) :=
  takes_word_call (Chomping.all.map Chomping.text)
    (by simp [rules, Chomping.all, Chomping.text]) (by cases value <;> decide)
    (by cases value <;> decide) (refuses_nameChar ends)

private theorem takes_inFlow :
    Takes (depth + 4) (.call "in-flow") Parameter.inFlow.chars rest
      (one "in-flow" fun source tree =>
        ∃ part, tree.child? "param-variable" = some part ∧ WrittenAs ['c'] source part) := by
  have bare : Takes (depth + 3) (.call "param-variable") ['c'] (')' :: rest)
      (one "param-variable" (WrittenAs ['c'])) := takes_variable .c (by simp)
  have row : Takes (depth + 3) _ ("in-flow(".toList ++ ([] ++ (['c'] ++ ([] ++ [')'])))) rest _ :=
    (takes_literal "in-flow(" rfl).andThen ((takes_gap (by simp [isSpace])).andThen
      (bare.andThen ((takes_gap (by simp [isSpace])).andThen (takes_literal ")" rfl).last)))
  simp only [silent_andThen, andThen_silent] at row
  refine (row.call "in-flow" (by simp [rules])).translate fun source tree _ _ inside => ?_
  obtain ⟨before, _, split, blank, _, behind, rfl, ⟨part, rfl, kind, written⟩, blank'⟩ := inside
  refine ⟨part, ?_, written⟩
  rw [Tree.child?, split, List.find?_append, find?_of_named blank (by decide)]
  simp [kind]

/-- Whether a text starts with a letter and another letter or digit. -/
def isWord (text : String) : Bool :=
  match text.toList with
  | first :: second :: _ => first.isAlpha && second.isAlphanum
  | _ => false

/-- A term of a sum does not start with a word. -/
theorem not_prefix_term {word : String} {term : Term} (long : isWord word = true)
    (ends : ∀ char ∈ rest.head?, char.isAlphanum = false) :
    ¬ word.toList <+: term.chars ++ rest := by
  unfold isWord at long
  split at long
  · rename_i first second more same
    obtain ⟨alpha, alnum⟩ := Bool.and_eq_true_iff.mp long
    cases term with
    | formal name =>
        obtain ⟨char, single⟩ : ∃ char, name.text.toList = [char] := by
          cases name <;> exact ⟨_, rfl⟩
        rw [same, Term.chars, single]
        rintro ⟨tail, split⟩
        obtain ⟨-, rfl⟩ := List.cons.inj split
        rw [ends second rfl] at alnum
        cases alnum
    | number value => exact not_prefix_number (by simpa [same] using alpha)
  · cases long

private theorem refuses_inFlow {ahead : List Char} (other : ¬ "in-flow(".toList <+: ahead) :
    Refuses (depth + 1) (.call "in-flow") ahead :=
  (refuses_other_literal other).sequence.call _ (by simp [rules]; rfl)

private theorem refuses_contextValue {ahead : List Char}
    (none : ∀ value : Context, ¬ value.text.toList <+: ahead) :
    Refuses (depth + 1) (.call "context-value") ahead :=
  refuses_word_call (Context.all.map Context.text)
    (by simp [rules, Context.all, Context.text]; rfl) fun word member => by
      obtain ⟨value, -, rfl⟩ := List.mem_map.mp member
      exact none value

private theorem refuses_chompingValue {ahead : List Char}
    (none : ∀ value : Chomping, ¬ value.text.toList <+: ahead) :
    Refuses (depth + 1) (.call "chomping-value") ahead :=
  refuses_word_call (Chomping.all.map Chomping.text)
    (by simp [rules, Chomping.all, Chomping.text]; rfl) fun word member => by
      obtain ⟨value, -, rfl⟩ := List.mem_map.mp member
      exact none value

/-- The alternatives of a parameter. -/
def parameterParts : List Node :=
  [.call "in-flow", .call "context-value", .call "chomping-value", .call "param-sum"]

private theorem takes_parameter (parameter : Parameter) (ends : EndsSum rest) :
    Takes (depth + 6) (.call "parameter") parameter.chars rest
      (one "parameter" parameter.Stands) := by
  have rule : ("parameter", .first parameterParts) ∈ rules := by simp [rules, parameterParts]
  cases parameter with
  | context value =>
      refine takes_sole rule [.call "in-flow"] "context-value" rfl ?_
        (takes_contextValue value ends)
      rw [List.forall_mem_singleton]
      exact refuses_inFlow (not_prefix_of_differ (by cases value <;> decide))
  | chomping value =>
      refine takes_sole rule [.call "in-flow", .call "context-value"] "chomping-value" rfl ?_
        (takes_chompingValue value ends)
      rw [List.forall_mem_cons, List.forall_mem_singleton]
      refine ⟨refuses_inFlow (not_prefix_of_differ (by cases value <;> decide)),
        refuses_contextValue fun other => not_prefix_of_differ ?_⟩
      cases value <;> cases other <;> decide
  | inFlow => exact takes_sole rule [] "in-flow" rfl (by simp) takes_inFlow
  | sum total =>
      refine takes_sole rule [.call "in-flow", .call "context-value", .call "chomping-value"]
        "param-sum" rfl ?_ (takes_sum total ends)
      have apart : ∀ word, isWord word = true → ¬ word.toList <+: total.chars ++ rest := by
        intro word long
        rw [Total.chars, List.append_assoc]
        exact not_prefix_term long (head_addends total.more ends)
      simp only [List.forall_mem_cons, List.not_mem_nil, false_imp_iff, implies_true, and_true]
      exact ⟨refuses_inFlow (apart _ (by decide)),
        refuses_contextValue fun value => apart _ (by cases value <;> decide),
        refuses_chompingValue fun value => apart _ (by cases value <;> decide)⟩

private theorem head_ne_space_of_isWord (word : String) (long : isWord word = true) :
    ∀ char ∈ (word.toList ++ rest).head?, isSpace char = false := by
  unfold isWord at long
  split at long
  · rename_i first second more same
    rw [same]
    intro char member
    obtain rfl : first = char := by simpa using member
    by_contra space
    simp only [isSpace, Bool.not_eq_false, Bool.or_eq_true, decide_eq_true_eq] at space
    rcases space with rfl | rfl <;> cases long
  · cases long

private theorem Parameter.head_ne_space (parameter : Parameter) :
    ∀ char ∈ (parameter.chars ++ rest).head?, isSpace char = false := by
  cases parameter with
  | context value => exact head_ne_space_of_isWord value.text (by cases value <;> decide)
  | chomping value => exact head_ne_space_of_isWord value.text (by cases value <;> decide)
  | inFlow => exact head_ne_space_of_isWord "in-flow(" (by decide)
  | sum total =>
      change ∀ char ∈ (total.first.chars ++ addends total.more ++ rest).head?, _
      rw [List.append_assoc]
      exact total.first.head_ne_space

/-- A text is read as a parameter before what closes it, and its tree stands for something. -/
structure ReadsParameter (item : Item) : Prop where
  opens : ∀ tail, ∀ char ∈ (item.chars ++ tail).head?, isSpace char = false
  takes : ∀ {depth : ℕ} {rest : List Char}, EndsSum rest →
    Takes (depth + 6) (.call "parameter") item.chars rest (one "parameter" item.stands)

/-- A parameter is read as it is written, with whatever its tree then stands for. -/
theorem Parameter.reads (parameter : Parameter) {stands : Dialect.Stands}
    (implies : ∀ source tree, parameter.Stands source tree → stands source tree) :
    ReadsParameter ⟨parameter.chars, stands⟩ := by
  refine ⟨fun _ => parameter.head_ne_space, fun ends => ?_⟩
  refine (takes_parameter parameter ends).imp fun source trees found => ?_
  obtain ⟨tree, rfl, kind, holds⟩ := found
  exact ⟨tree, rfl, kind, implies source tree holds⟩

/-- Texts of parameters in brackets. -/
def listItem (first : Item) (more : List Item) : Item where
  chars := '(' :: (first.chars ++ (written [','] more ++ [')']))
  stands source tree := Stood "parameter" (first :: more) source tree.content

/-- A list of parameters in brackets, if there are any. -/
def parameterList : List Item → Option Item
  | [] => none
  | first :: more => some (listItem first more)

/-- What takes a further parameter. -/
def furtherParameter : Node := .sequence [spaces, .literal ",", spaces, .call "parameter"]

private theorem takes_furtherParameter {item : Item} (reads : ReadsParameter item)
    (ends : EndsSum rest) :
    Takes (depth + 6) furtherParameter ([','] ++ item.chars) rest (Stood "parameter" [item]) := by
  have row : Takes (depth + 6) furtherParameter ([] ++ ([','] ++ ([] ++ item.chars))) rest _ :=
    (takes_gap (by simp [isSpace])).andThen ((takes_literal "," rfl).andThen
      ((takes_gap (reads.opens rest)).andThen (reads.takes ends).last))
  simp only [silent_andThen] at row
  refine row.imp fun source trees holds => ?_
  obtain ⟨before, _, rfl, blank, between, behind, rfl, blank', stands⟩ := holds
  exact Stood.append (.of_named blank (by decide))
    (Stood.append (.of_named blank' (by decide)) (Stood.of_one stands))

/-- Texts that are read as parameters are read as a list. -/
theorem readsList_listItem {first : Item} {more : List Item}
    (each : ∀ item ∈ first :: more, ReadsParameter item) :
    ReadsList (some (listItem first more)) := by
  rintro _ ⟨⟩
  refine ⟨⟨_, rfl⟩, fun {depth rest} => ?_⟩
  have continues : ∀ item ∈ more, ∀ tail, EndsSum ([','] ++ item.chars ++ tail) :=
    fun _ _ _ => ⟨',', _, rfl, by simp⟩
  have closes : EndsSum (')' :: rest) := ⟨')', _, rfl, by simp⟩
  have stops : Refuses (depth + 6) furtherParameter (')' :: rest) :=
    (takes_gap (by simp [isSpace])).refuses (refuses_literal "," ',' rfl (by simp)).sequence
  have tail := takes_written (by simp) continues
    (fun item member rest ends => takes_furtherParameter (each item (.tail _ member)) ends)
    stops closes
  have next : EndsSum (written [','] more ++ ([] ++ [')']) ++ rest) := by
    simpa using ends_written continues closes
  have head : ReadsParameter first := each first List.mem_cons_self
  have row : Takes (depth + 6) _ (['('] ++ ([] ++ (first.chars ++
      (written [','] more ++ ([] ++ [')']))))) rest _ :=
    (takes_literal "(" rfl).andThen ((takes_gap (by
        rw [List.append_assoc]
        exact head.opens _)).andThen
      ((head.takes next).andThen (tail.andThen
        ((takes_gap (by simp [isSpace])).andThen (takes_literal ")" rfl).last))))
  simp only [silent_andThen, andThen_silent] at row
  refine (row.call "parameter-list" (by simp [rules, furtherParameter])).translate
    fun source tree _ _ inside => ?_
  obtain ⟨before, _, split, blank, one, _, rfl, stands, later, behind, rfl, others, blank'⟩ :=
    inside
  change Stood _ _ source tree.content
  rw [split]
  exact Stood.append (.of_named blank (by decide)) (Stood.append (Stood.of_one stands)
    (by simpa using Stood.append others (.of_named blank' (by decide))))

theorem readsList_parameterList {items : List Item} (each : ∀ item ∈ items, ReadsParameter item) :
    ReadsList (parameterList items) := by
  cases items with
  | nil => exact readsList_none
  | cons first more => exact readsList_listItem each

/-- The parameters of a list that may be missing. -/
def parametersOf : Option Tree → List Tree
  | some list => list.children "parameter"
  | none => []

/-- The trees of the parameters of a list stand for them one by one. -/
theorem stands_parameters {items : List Item} {list : Option Tree}
    (stands : Option.Rel (fun item tree => item.stands source tree) (parameterList items) list) :
    List.Forall₂ (fun tree item => item.stands source tree) (parametersOf list) items := by
  cases items with
  | nil =>
      cases stands
      exact .nil
  | cons first more =>
      cases stands with
      | some stood => exact stood

/-! ### Counts and section numbers -/

/-- How a count is written. -/
def countChars (total : Total) : List Char := '{' :: (total.chars ++ ['}'])

theorem takes_count (total : Total) :
    Takes (depth + 6) (.call "quantifier") (countChars total) rest
      (one "quantifier" fun source tree => WrittenAs (countChars total) source tree ∧
        ∃ part, tree.child? "param-sum" = some part ∧ total.Stands source part) := by
  have closes : EndsSum ('}' :: rest) := ⟨_, _, rfl, by simp⟩
  have other : ∀ word ∈ ["?", "*", "+"],
      Refuses (depth + 5) (.literal word) (countChars total ++ rest) := by
    simp only [List.forall_mem_cons, List.not_mem_nil, false_imp_iff, implies_true, and_true]
    exact ⟨refuses_literal "?" '?' rfl (by simp [countChars]),
      refuses_literal "*" '*' rfl (by simp [countChars]),
      refuses_literal "+" '+' rfl (by simp [countChars])⟩
  have row : Takes (depth + 5) _ (['{'] ++ ([] ++ (total.chars ++ ([] ++ ['}'])))) rest _ :=
    (takes_literal "\x7b" rfl).andThen ((takes_gap (by
      rw [List.append_assoc]
      exact (Parameter.sum total).head_ne_space)).andThen
        ((takes_sum total closes).andThen ((takes_gap (by simp [isSpace])).andThen
          (takes_literal "\x7d" rfl).last)))
  simp only [silent_andThen, andThen_silent] at row
  have others : ∀ node ∈ ["?", "*", "+"].map Node.literal,
      Refuses (depth + 5) node (countChars total ++ rest) := by
    rw [List.forall_mem_map]
    exact other
  have choice := row.choice [] others
  refine (choice.call "quantifier" (by simp [rules])).translate
    fun source tree _ written inside => ⟨written, ?_⟩
  obtain ⟨before, _, split, blank, _, behind, rfl, ⟨part, rfl, kind, stands⟩, blank'⟩ := inside
  refine ⟨part, ?_, stands⟩
  rw [Tree.child?, split, List.find?_append, find?_of_named blank (by decide)]
  simp [kind]

/-- A section number in brackets before a clause. -/
def numberLabel (number : UInt32) : Item where
  chars := '[' :: ((Numeral.decimal number.toNat).toList ++ [']', ' '])
  stands source tree := sectionNumber source tree = .ok number

theorem readsLabel_number (number : UInt32) : ReadsLabel (some (numberLabel number)) := by
  rintro _ ⟨⟩
  refine ⟨⟨_, rfl⟩, fun {depth rest} plain => ?_⟩
  have decimal : Takes (depth + 3) (.call "decimal") (Numeral.decimal number.toNat).toList
      ([']', ' '] ++ rest) (one "decimal" (WrittenAs (Numeral.decimal number.toNat).toList)) :=
    takes_decimal (Int.ofNat number.toNat) (by simp)
  have blank : Takes (depth + 3) (.call "s-ignorable") [' '] rest (named "s-ignorable") :=
    takes_ignorable (.blank rfl .nil) plain
  have row : Takes (depth + 3) _ (['['] ++ ((Numeral.decimal number.toNat).toList ++
      ([']'] ++ [' ']))) rest _ :=
    (takes_literal "[" rfl).andThen (decimal.andThen ((takes_literal "]" rfl).andThen blank.last))
  simp only [silent_andThen] at row
  refine (row.call "section-number" (by simp [rules])).translate
    fun source tree _ _ inside => ?_
  obtain ⟨_, behind, split, ⟨part, rfl, kind, written⟩, -⟩ := inside
  have found : tree.child? "decimal" = some part := by simp [Tree.child?, split, kind]
  change sectionNumber source tree = _
  simp only [sectionNumber, Tree.required, found, written.text, bind, Except.bind,
    Numeral.word?_decimal]
  rfl

end Dialect

end Bnf

end ParametricGrammar
