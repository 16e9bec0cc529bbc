import ParametricGrammar.Proofs.Dialect.Phrases
import ParametricGrammar.Proofs.Dialect.Yields
/-!
# Shapes of the trees of grammar texts

Which parts the tree of a production has, and what the texts of the smallest ones look like.
-/

namespace ParametricGrammar

namespace Bnf

namespace Dialect

variable {source : List Char} {node child : Node} {nodes : List Node} {kind name : String}
  {chars rest : List Char} {tree part : Tree} {trees : List Tree}

/-! ### Parts -/

private theorem Yields.exists_part (yields : Yields source (.sequence nodes) chars rest trees)
    (among : .call name ∈ nodes) : ∃ part ∈ trees, part.name = name := by
  induction nodes generalizing chars trees with
  | nil => cases among
  | cons node nodes induction =>
      obtain ⟨_, _, before, behind, -, rfl, head, tail⟩ := yields_sequence_cons.mp yields
      rcases List.mem_cons.mp among with rfl | later
      · cases head with
        | call _ named _ _ _ => exact ⟨_, List.mem_cons_self, named⟩
      · obtain ⟨part, member, named⟩ := induction tail later
        exact ⟨part, List.mem_append_right _ member, named⟩

theorem Parsed.of_child? (parsed : Parsed source tree) (found : tree.child? name = some part) :
    Parsed source part ∧ part.name = name :=
  ⟨parsed.part (List.mem_of_find?_eq_some found), by simpa using List.find?_some found⟩

theorem Parsed.of_children (parsed : Parsed source tree) (member : part ∈ tree.children name) :
    Parsed source part ∧ part.name = name := by
  obtain ⟨member, named⟩ := List.mem_filter.mp member
  exact ⟨parsed.part member, of_decide_eq_true named⟩

private theorem Parsed.exists_part (parsed : Parsed source tree) (named : tree.name = kind)
    (found : rules.lookup kind = some (.sequence nodes)) (among : .call name ∈ nodes) :
    ∃ part ∈ tree.content, part.name = name := by
  obtain ⟨_, _, -, -, yields⟩ := parsed.yields named found
  exact yields.exists_part among

/-- A production that calls another one in a row has it as a child. -/
theorem Parsed.exists_child? (parsed : Parsed source tree) (named : tree.name = kind)
    (found : rules.lookup kind = some (.sequence nodes)) (among : .call name ∈ nodes) :
    ∃ part, tree.child? name = some part := by
  obtain ⟨part, member, label⟩ := parsed.exists_part named found among
  exact Option.isSome_iff_exists.mp (List.find?_isSome.mpr ⟨part, member, by simpa using label⟩)

theorem Parsed.children_ne_nil (parsed : Parsed source tree) (named : tree.name = kind)
    (found : rules.lookup kind = some (.sequence nodes)) (among : .call name ∈ nodes) :
    tree.children name ≠ [] := by
  obtain ⟨part, member, label⟩ := parsed.exists_part named found among
  exact List.ne_nil_of_mem (List.mem_filter.mpr ⟨member, by simpa using label⟩)

private theorem Yields.one_of {names : List String}
    (yields : Yields source (.first (names.map .call)) chars rest trees) :
    ∃ part, trees = [part] ∧ part.name ∈ names ∧
      Yields source (.call part.name) chars rest [part] := by
  induction names with
  | nil => cases yields
  | cons name names induction =>
      rcases yields_first_cons.mp yields with chosen | ⟨-, later⟩
      · cases chosen with
        | call member named written matched inside =>
            subst named
            exact ⟨_, rfl, List.mem_cons_self, .call member rfl written matched inside⟩
      · obtain ⟨part, only, member, inside⟩ := induction later
        exact ⟨part, only, List.mem_cons_of_mem _ member, inside⟩

/-- All alternatives before the last one miss when that is chosen. -/
theorem Yields.last_of {names : List String} {last : String}
    (yields : Yields source (.first ((names ++ [last]).map .call)) chars rest [part])
    (apart : part.name ∉ names) :
    (∀ other ∈ names, Misses (.call other) (chars ++ rest)) ∧
      Yields source (.call last) chars rest [part] := by
  induction names with
  | nil =>
      rcases yields_first_cons.mp yields with chosen | ⟨-, none⟩
      · exact ⟨fun _ member => absurd member List.not_mem_nil, chosen⟩
      · cases none
  | cons name names induction =>
      rw [List.mem_cons, not_or] at apart
      rcases yields_first_cons.mp yields with chosen | ⟨misses, later⟩
      · cases chosen with
        | call _ named _ _ _ => exact absurd named apart.1
      · obtain ⟨others, chosen⟩ := induction later apart.2
        refine ⟨fun other member => ?_, chosen⟩
        rcases List.mem_cons.mp member with rfl | member
        · exact misses
        · exact others other member

/-- A production that is a choice of others has one of them as its only child. -/
theorem Parsed.one_of {names : List String} (parsed : Parsed source tree) (named : tree.name = kind)
    (found : rules.lookup kind = some (.first (names.map .call))) :
    ∃ part, tree.content = [part] ∧ part.name ∈ names := by
  obtain ⟨_, _, -, -, yields⟩ := parsed.yields named found
  obtain ⟨part, only, member, -⟩ := yields.one_of
  exact ⟨part, only, member⟩

private theorem Yields.text_of {texts : List String}
    (yields : Yields source (.first (texts.map .literal)) chars rest trees) :
    String.ofList chars ∈ texts := by
  induction texts with
  | nil => cases yields
  | cons text texts induction =>
      rcases yields_first_cons.mp yields with chosen | ⟨-, later⟩
      · obtain ⟨rfl, -⟩ := yields_literal.mp chosen
        rw [String.ofList_toList]
        exact List.mem_cons_self
      · exact List.mem_cons_of_mem _ (induction later)

theorem text_of_slice? (written : slice? source tree.start tree.stop = some chars) :
    tree.text source = String.ofList chars := by
  rw [Tree.text, slice, written, Option.getD_some]

/-- A production that is a choice of words before something else covers one of them. -/
theorem Parsed.text_of {texts : List String} (parsed : Parsed source tree)
    (named : tree.name = kind)
    (found : rules.lookup kind =
      some (.sequence [.first (texts.map .literal), .notAhead child])) :
    tree.text source ∈ texts := by
  obtain ⟨chars, rest, written, -, yields⟩ := parsed.yields named found
  obtain ⟨left, right, before, behind, rfl, -, head, tail⟩ := yields_sequence_cons.mp yields
  obtain ⟨nothing, _, _, _, rfl, -, ahead, last⟩ := yields_sequence_cons.mp tail
  obtain ⟨-, rfl, -⟩ := yields_notAhead.mp ahead
  obtain ⟨rfl, -⟩ := yields_sequence_nil.mp last
  rw [text_of_slice? written]
  simpa using head.text_of

/-! ### Letters and names -/

theorem Letter.matched {may : Char → Bool} {leaves : Leaves} {depth : ℕ}
    (letter : Letter depth node may leaves) (matched : Matched node chars rest) :
    ∃ char, chars = [char] ∧ may char = true := by
  by_cases opens : ∀ char ∈ (chars ++ rest).head?, may char = false
  · exact absurd (letter.refuses opens) matched.not_refuses
  · cases split : chars ++ rest with
    | nil => simp [split] at opens
    | cons char behind =>
        have holds : may char = true := by simpa [split] using opens
        exact ⟨char, matched.of_takes (letter.takes holds) split, holds⟩

private theorem Yields.nameStep (yields : Yields source nameStep chars rest trees) :
    (∃ char, chars = [char] ∧ char.isAlphanum = true) ∨
      ∃ joiner char, chars = [joiner, char] ∧ isJoiner joiner = true ∧ char.isAlphanum = true := by
  rcases yields_first_cons.mp yields with alnum | ⟨-, joined⟩
  · exact .inl ((@letter_alnum 0).matched alnum.matched)
  · rcases yields_first_cons.mp joined with both | ⟨-, none⟩
    · obtain ⟨_, _, _, _, rfl, -, head, tail⟩ := yields_sequence_cons.mp both
      obtain ⟨_, _, _, _, rfl, -, next, last⟩ := yields_sequence_cons.mp tail
      obtain ⟨rfl, -⟩ := yields_sequence_nil.mp last
      obtain ⟨joiner, rfl, joins⟩ := (@letter_joiner 0).matched head.matched
      obtain ⟨char, rfl, alnum⟩ := (@letter_alnum 0).matched next.matched
      exact .inr ⟨joiner, char, rfl, joins, alnum⟩
    · cases none

private theorem Misses.not_alnum (misses : Misses Dialect.nameStep rest) :
    endsName rest = true := by
  cases rest with
  | nil => rfl
  | cons char rest =>
      have plain : char.isAlphanum = false := by
        by_contra alnum
        refine misses 2 [char] rest anything rfl ?_
        exact ((@letter_alnum 0).takes (by simpa using alnum)).anything.first
      cases rest with
      | nil => simp [endsName, plain]
      | cons next rest =>
          have apart : (isJoiner char && next.isAlphanum) = false := by
            by_contra joins
            obtain ⟨joiner, alnum⟩ : isJoiner char = true ∧ next.isAlphanum = true := by
              simpa using joins
            refine misses 2 ([char] ++ [next]) rest anything rfl ?_
            have both : Takes 2 _ ([char] ++ [next]) rest _ :=
              ((@letter_joiner 1).takes joiner).andThen ((@letter_alnum 0).takes alnum).last
            exact ((@letter_alnum 0).refuses (by simpa using plain)).orElse both.anything.first
          simp [endsName, plain, apart]

private theorem Yields.nameSteps
    (yields : Yields source (.zeroOrMore Dialect.nameStep) chars rest trees) :
    continuesName chars = true ∧ endsName rest = true := by
  refine yields.repetition
    (motive := fun chars rest _ => continuesName chars = true ∧ endsName rest = true) ?_ ?_ ?_
  · exact fun rest misses => ⟨rfl, misses.not_alnum⟩
  · intro rest trees once
    rcases once.nameStep with ⟨_, none, -⟩ | ⟨_, _, none, -⟩ <;> cases none
  · rintro left right rest before behind head ⟨continues, ends⟩
    refine ⟨?_, ends⟩
    rcases head.nameStep with ⟨char, rfl, alnum⟩ | ⟨joiner, char, rfl, joins, alnum⟩
    · cases right with
      | nil => exact alnum
      | cons next right => simpa [continuesName, alnum] using continues
    · have other : joiner.isAlphanum = false := by
        obtain rfl | rfl : joiner = '-' ∨ joiner = '+' := by simpa [isJoiner] using joins
        all_goals rfl
      cases right with
      | nil => simp [continuesName, other, joins, alnum]
      | cons next right => simp [continuesName, other, joins, alnum, continues]

/-- What is read as a name is one, and nothing behind it continues it. -/
theorem Yields.isName (yields : Yields source (.call "production-name") chars rest trees) :
    Dialect.isName chars = true ∧ endsName rest = true := by
  obtain ⟨_, -, -, -, inside⟩ := yields.inside (by simp [rules]; rfl)
  obtain ⟨_, _, _, _, rfl, -, head, tail⟩ := yields_sequence_cons.mp inside
  obtain ⟨_, _, _, _, rfl, -, more, last⟩ := yields_sequence_cons.mp tail
  obtain ⟨rfl, -⟩ := yields_sequence_nil.mp last
  obtain ⟨char, rfl, alpha⟩ := (@letter_alpha 0).matched head.matched
  obtain ⟨continues, ends⟩ := more.nameSteps
  exact ⟨by simpa [Dialect.isName, alpha] using continues, ends⟩

/-- A code point is taken off what starts like one. -/
theorem exists_takes_hexChar (like : isHexLike chars = true)
    (ends : ∀ char ∈ rest.head?, char.isAlphanum = false) :
    ∃ hex behind leaves, chars ++ rest = hex ++ behind ∧
      Takes 3 (.call "hex-char") hex behind leaves := by
  obtain ⟨more, rfl, digit, letter⟩ : ∃ more, chars = 'x' :: more ∧
      (more.head?.any isHexDigit) = true ∧
        ((more.dropWhile isHexDigit).head?.any Char.isAlphanum) = false := by
    unfold isHexLike at like
    split at like
    · rename_i more
      exact ⟨more, rfl, by simpa using like⟩
    · cases like
  have some : more.takeWhile isHexDigit ≠ [] := by
    cases more with
    | nil => simp at digit
    | cons first more => simpa [List.takeWhile_cons] using digit
  have split : more.takeWhile isHexDigit ++ more.dropWhile isHexDigit = more :=
    List.takeWhile_append_dropWhile
  refine ⟨'x' :: more.takeWhile isHexDigit, more.dropWhile isHexDigit ++ rest, _, ?_,
    takes_hexChar some (fun _ => List.mem_takeWhile_imp) ?_⟩
  · rw [List.cons_append, List.cons_append, ← List.append_assoc, split]
  · intro char member
    cases behind : more.dropWhile isHexDigit with
    | nil => exact ends char (by simpa [behind] using member)
    | cons first tail =>
        obtain rfl : first = char := by simpa [behind] using member
        simpa [behind] using letter

/-- The kinds of atoms apart from references. -/
def closedAtoms : List String :=
  [ "lookaround", "special", "group", "code-point-range", "hex-char", "quoted-string", "any-char" ]

/-- What is read as a reference opens with a name that is not read as a code point. -/
theorem Yields.reference (yields : Yields source (.call "reference") chars rest [part])
    (misses : Misses (.call "hex-char") (chars ++ rest)) :
    ∃ label name, part.child? "production-name" = some label ∧
      label.text source = String.ofList name ∧ Dialect.isName name = true ∧
        isHexLike name = false := by
  obtain ⟨_, same, -, -, inside⟩ := yields.inside (by simp [rules]; rfl)
  obtain rfl := (List.cons.inj same).1
  obtain ⟨name, more, before, behind, rfl, content, head, -⟩ := yields_sequence_cons.mp inside
  obtain ⟨valid, ends⟩ := head.isName
  obtain ⟨label, rfl, named, written, -⟩ := head.inside (by simp [rules]; rfl)
  refine ⟨label, name, by simp [Tree.child?, content, named], text_of_slice? written, valid, ?_⟩
  by_contra like
  obtain ⟨hex, tail, leaves, split, takes⟩ :=
    exists_takes_hexChar (by simpa using like) (head_of_endsName ends)
  exact misses 3 hex tail leaves (by rw [List.append_assoc, split]) takes

/-- An atom has one part, and if that is a reference, its name is not read as a code point. -/
theorem Parsed.atom (parsed : Parsed source tree) (named : tree.name = "atom") :
    ∃ part, tree.content = [part] ∧ (part.name ∈ closedAtoms ∨ part.name = "reference" ∧
      ∃ label name, part.child? "production-name" = some label ∧
        label.text source = String.ofList name ∧ isName name = true ∧
          isHexLike name = false) := by
  obtain ⟨chars, rest, -, -, yields⟩ := parsed.yields named rfl
  have choice : Yields source (.first ((closedAtoms ++ ["reference"]).map .call)) chars rest
      tree.content := yields
  obtain ⟨part, only, member, -⟩ := choice.one_of
  refine ⟨part, only, ?_⟩
  rcases List.mem_append.mp member with closed | reference
  · exact .inl closed
  · have kind : part.name = "reference" := List.mem_singleton.mp reference
    rw [only] at choice
    obtain ⟨misses, chosen⟩ := choice.last_of (by rw [kind]; decide)
    exact .inr ⟨kind, chosen.reference (misses "hex-char" (by decide))⟩

/-! ### Quotes -/

theorem Yields.run {may : Char → Bool} {depth : ℕ} {leaves : Leaves}
    (letter : Letter depth (.call name) may leaves)
    (yields : Yields source (.oneOrMore (.call name)) chars rest trees) :
    chars ≠ [] ∧ ∀ char ∈ chars, may char = true := by
  have each : ∀ chars rest trees, Yields source (.call name) chars rest trees →
      ∃ char, chars = [char] ∧ may char = true :=
    fun _ _ _ once => letter.matched once.matched
  refine ⟨?_, yields.repetition_chars fun chars rest trees once char member => ?_⟩
  · generalize same : Node.oneOrMore (.call name) = node at yields
    cases yields with
    | again head _ =>
        cases same
        obtain ⟨char, rfl, -⟩ := each _ _ _ head
        simp
    | idle once =>
        cases same
        obtain ⟨char, none, -⟩ := each _ _ _ once
        cases none
    | stop _ => simp [Node.oneOrMore] at same
    | _ => cases same
  · obtain ⟨other, rfl, holds⟩ := each _ _ _ once
    obtain rfl := List.mem_singleton.mp member
    exact holds

/-- What is read between two literals. -/
theorem Yields.between {first last : String}
    (yields : Yields source (.sequence [.literal first, node, .literal last]) chars rest trees) :
    ∃ inner behind leaves, chars = first.toList ++ (inner ++ last.toList) ∧
      Yields source node inner behind leaves := by
  obtain ⟨_, _, _, _, rfl, -, opening, tail⟩ := yields_sequence_cons.mp yields
  obtain ⟨inner, _, leaves, _, rfl, -, middle, tail⟩ := yields_sequence_cons.mp tail
  obtain ⟨_, _, _, _, rfl, -, closing, none⟩ := yields_sequence_cons.mp tail
  obtain ⟨rfl, -⟩ := yields_literal.mp opening
  obtain ⟨rfl, -⟩ := yields_literal.mp closing
  obtain ⟨rfl, -⟩ := yields_sequence_nil.mp none
  exact ⟨inner, _, leaves, by simp, middle⟩

theorem Parsed.quotedString (parsed : Parsed source tree) (named : tree.name = "quoted-string") :
    ∃ quote run, isQuote quote = true ∧ run ≠ [] ∧ run.all (fits quote) = true ∧
      tree.text source = String.ofList (quote :: (run ++ [quote])) := by
  obtain ⟨chars, rest, written, -, yields⟩ := parsed.yields named rfl
  rw [text_of_slice? written]
  rcases yields_first_cons.mp yields with single | ⟨-, later⟩
  · obtain ⟨run, _, _, rfl, inside⟩ := single.between
    obtain ⟨some, all⟩ := inside.run (@letter_singleQuoted 0)
    exact ⟨'\'', run, rfl, some, List.all_eq_true.mpr all, rfl⟩
  · rcases yields_first_cons.mp later with double | ⟨-, none⟩
    · obtain ⟨run, _, _, rfl, inside⟩ := double.between
      obtain ⟨some, all⟩ := inside.run (@letter_doubleQuoted 0)
      exact ⟨'"', run, rfl, some, List.all_eq_true.mpr all, rfl⟩
    · cases none

theorem Parsed.quotedChar (parsed : Parsed source tree) (named : tree.name = "quoted-char") :
    ∃ quote char, tree.text source = String.ofList [quote, char, quote] := by
  obtain ⟨chars, rest, written, -, yields⟩ := parsed.yields named rfl
  rw [text_of_slice? written]
  rcases yields_first_cons.mp yields with single | ⟨-, later⟩
  · obtain ⟨_, _, _, rfl, inside⟩ := single.between
    obtain ⟨char, rfl, -⟩ := (@letter_singleQuoted 0).matched inside.matched
    exact ⟨'\'', char, rfl⟩
  · rcases yields_first_cons.mp later with double | ⟨-, none⟩
    · obtain ⟨_, _, _, rfl, inside⟩ := double.between
      obtain ⟨char, rfl, -⟩ := (@letter_doubleQuoted 0).matched inside.matched
      exact ⟨'"', char, rfl⟩
    · cases none

/-! ### Ranges and counts -/

theorem Parsed.rangeBounds (parsed : Parsed source tree) (named : tree.name = "code-point-range") :
    ∃ left right, tree.children "range-bound" = [left, right] := by
  obtain ⟨_, _, -, -, yields⟩ := parsed.yields named rfl
  obtain ⟨_, _, _, _, -, content, opening, tail⟩ := yields_sequence_cons.mp yields
  obtain ⟨_, _, _, _, -, rfl, first, tail⟩ := yields_sequence_cons.mp tail
  obtain ⟨_, _, _, _, -, rfl, dash, tail⟩ := yields_sequence_cons.mp tail
  obtain ⟨_, _, _, _, -, rfl, second, tail⟩ := yields_sequence_cons.mp tail
  obtain ⟨_, _, _, _, -, rfl, closing, last⟩ := yields_sequence_cons.mp tail
  obtain ⟨-, rfl⟩ := yields_literal.mp opening
  obtain ⟨-, rfl⟩ := yields_literal.mp dash
  obtain ⟨-, rfl⟩ := yields_literal.mp closing
  obtain ⟨-, rfl⟩ := yields_sequence_nil.mp last
  obtain ⟨left, rfl, nameLeft, -⟩ := first.inside (by simp [rules]; rfl)
  obtain ⟨right, rfl, nameRight, -⟩ := second.inside (by simp [rules]; rfl)
  exact ⟨left, right, by simp [Tree.children, content, nameLeft, nameRight]⟩

/-- A quantifier is a mark without parts, or it has a count. -/
theorem Parsed.quantifier (parsed : Parsed source tree) (named : tree.name = "quantifier") :
    (∃ mark : Mark, tree.text source = String.ofList [mark.char] ∧ tree.content = []) ∨
      (∀ mark : Mark, tree.text source ≠ String.ofList [mark.char]) ∧
        ∃ sum, tree.child? "param-sum" = some sum := by
  obtain ⟨chars, rest, written, -, yields⟩ := parsed.yields named rfl
  rw [text_of_slice? written]
  rcases yields_first_cons.mp yields with chosen | ⟨-, later⟩
  · obtain ⟨rfl, none⟩ := yields_literal.mp chosen
    exact .inl ⟨.optional, rfl, none⟩
  rcases yields_first_cons.mp later with chosen | ⟨-, later⟩
  · obtain ⟨rfl, none⟩ := yields_literal.mp chosen
    exact .inl ⟨.zeroOrMore, rfl, none⟩
  rcases yields_first_cons.mp later with chosen | ⟨-, later⟩
  · obtain ⟨rfl, none⟩ := yields_literal.mp chosen
    exact .inl ⟨.oneOrMore, rfl, none⟩
  rcases yields_first_cons.mp later with counted | ⟨-, none⟩
  · obtain ⟨part, member, label⟩ := counted.exists_part (by simp : Node.call "param-sum" ∈ _)
    obtain ⟨_, more, _, _, rfl, -, opening, -⟩ := yields_sequence_cons.mp counted
    obtain ⟨rfl, -⟩ := yields_literal.mp opening
    refine .inr ⟨fun mark same => ?_, ?_⟩
    · have heads := congrArg List.head? (String.ofList_injective same)
      cases mark <;> simp [Mark.char] at heads
    · exact Option.isSome_iff_exists.mp (List.find?_isSome.mpr ⟨part, member, by simpa using label⟩)
  · cases none

end Dialect

end Bnf

end ParametricGrammar
