import Mathlib.Data.List.TakeWhile
import ParametricGrammar.Bnf.Literal
import ParametricGrammar.Proofs.CharSets
import ParametricGrammar.Proofs.Dialect.Rules
/-!
# The smallest parts of grammar texts

Characters by class, runs of them, blanks and comments, names, and code points.
-/

namespace ParametricGrammar

namespace Bnf

namespace Dialect

variable {depth : ℕ} {node : Node} {nodes : List Node} {name : String} {body : Node}
  {chars rest ahead : List Char} {leaves : Leaves} {may : Char → Bool}

/-! ### Trees left behind by lexemes -/

/-- Any trees. -/
def anything : Leaves := fun _ _ => True

/-- Trees of one name. -/
def named (name : String) : Leaves := fun _ trees => ∀ tree ∈ trees, tree.name = name

/-- A property that no trees have, and trees one after the other if each part has it. -/
structure Leaves.Gathers (leaves : Leaves) : Prop where
  nothing : ∀ source, leaves source []
  append : ∀ source before behind, leaves source before → leaves source behind →
    leaves source (before ++ behind)

private theorem gathers_anything : anything.Gathers :=
  ⟨fun _ => trivial, fun _ _ _ _ _ => trivial⟩

theorem gathers_named (name : String) : (named name).Gathers := by
  refine ⟨fun source tree member => ?_, fun source before behind left right tree member => ?_⟩
  · cases member
  · rcases List.mem_append.mp member with member | member
    · exact left tree member
    · exact right tree member

theorem Takes.anything (takes : Takes depth node chars rest leaves) :
    Takes depth node chars rest anything :=
  takes.imp fun _ _ _ => trivial

private theorem Takes.named (takes : Takes depth node chars rest (leaves.under name chars)) :
    Takes depth node chars rest (named name) := by
  refine takes.imp fun source trees holds => ?_
  obtain ⟨tree, rfl, same, -⟩ := holds
  simpa [Dialect.named] using same

/-! ### Single characters -/

/-- An expression that matches one character of a class, and nothing before others. -/
structure Letter (depth : ℕ) (node : Node) (may : Char → Bool) (leaves : Leaves) : Prop where
  takes : ∀ {char rest}, may char = true → Takes depth node [char] rest leaves
  refuses : ∀ {ahead}, (∀ char ∈ ahead.head?, may char = false) → Refuses depth node ahead

namespace Letter

theorem congr {other : Char → Bool} (letter : Letter depth node may leaves)
    (same : ∀ char, other char = may char) : Letter depth node other leaves := by
  obtain rfl : other = may := funext same
  exact letter

private theorem ofSet (set : CharSet) : Letter depth (.chars set) set.contains anything :=
  ⟨fun member => (takes_chars member).anything, refuses_chars⟩

private theorem literal (char : Char) {text : String} (spelled : text.toList = [char]) :
    Letter depth (.literal text) (· = char) anything where
  takes same := by
    obtain rfl := of_decide_eq_true same
    exact (takes_literal text spelled).anything
  refuses others :=
    refuses_literal text char spelled fun same => absurd (others _ same) (by simp)

private theorem none : Letter depth (.first []) (fun _ => false) anything :=
  ⟨fun never => (Bool.false_ne_true never).elim, fun _ => refuses_none⟩

private theorem or {other : Char → Bool} (letter : Letter depth node may leaves)
    (letters : Letter depth (.first nodes) other anything) :
    Letter depth (.first (node :: nodes)) (fun char => may char || other char) anything where
  takes {char rest} either := by
    by_cases here : may char = true
    · exact (letter.takes here).anything.first
    · have later : other char = true := by simpa [here] using either
      refine (letter.refuses ?_).orElse (letters.takes later)
      simpa using here
  refuses neither :=
    (letter.refuses fun char ahead => (Bool.or_eq_false_iff.mp (neither char ahead)).1).both
      (letters.refuses fun char ahead => (Bool.or_eq_false_iff.mp (neither char ahead)).2)

private theorem call (member : (name, body) ∈ rules) (letter : Letter depth body may anything) :
    Letter (depth + 1) (.call name) may (named name) :=
  ⟨fun holds => ((letter.takes holds).call _ member).named,
    fun others => (letter.refuses others).call _ member⟩

/-- A run of letters is taken up to the first other character. -/
theorem zeroOrMore (letter : Letter depth node may leaves) (gathers : leaves.Gathers)
    (all : ∀ char ∈ chars, may char = true) (stops : ∀ char ∈ rest.head?, may char = false) :
    Takes depth (.zeroOrMore node) chars rest leaves := by
  induction chars with
  | nil =>
      refine (letter.refuses stops).zeroOrMore.imp fun source trees none => ?_
      obtain rfl : trees = [] := none
      exact gathers.nothing source
  | cons char chars induction =>
      have head : Takes depth node [char] (chars ++ rest) leaves :=
        letter.takes (all char List.mem_cons_self)
      have tail := induction fun other member => all other (List.mem_cons_of_mem _ member)
      refine (head.zeroOrMore (by simp) tail).imp fun source trees holds => ?_
      obtain ⟨before, behind, rfl, left, right⟩ := holds
      exact gathers.append source before behind left right

theorem oneOrMore {char : Char} (letter : Letter depth node may leaves) (gathers : leaves.Gathers)
    (all : ∀ other ∈ char :: chars, may other = true)
    (stops : ∀ char ∈ rest.head?, may char = false) :
    Takes depth (.oneOrMore node) (char :: chars) rest anything := by
  have head : Takes depth node [char] (chars ++ rest) leaves :=
    letter.takes (all char List.mem_cons_self)
  have tail := letter.zeroOrMore gathers
    (fun other member => all other (List.mem_cons_of_mem _ member)) stops
  exact (head.oneOrMore (by simp) tail).anything

end Letter

/-! ### Classes -/

/-- A space or a tab. -/
def isSpace (char : Char) : Bool := char = ' ' || char = '\t'

/-- A space, a tab or a line break. -/
def isBlank (char : Char) : Bool := isSpace char || Piece.breaksLine char

/-- A quote of either kind. -/
def isQuote (char : Char) : Bool := char = '\'' || char = '"'

/-- Whether a character may stand between two quotes of a kind. -/
def fits (quote char : Char) : Bool := !(char = quote || Piece.breaksLine char)

/-- What joins the words of a name. -/
def isJoiner (char : Char) : Bool := char = '-' || char = '+'

/-- A hexadecimal digit. -/
def isHexDigit (char : Char) : Bool :=
  char.isDigit || 'a' ≤ char && char ≤ 'f' || 'A' ≤ char && char ≤ 'F'

theorem isAlpha_eq (char : Char) :
    char.isAlpha =
      (decide ('A' ≤ char ∧ char ≤ 'Z') || ('a' ≤ char && char ≤ 'z')) :=
  rfl

theorem letter_alpha : Letter (depth + 1) (.call "alpha") Char.isAlpha (named "alpha") := by
  refine .call (by simp [rules]; rfl) ?_
  refine ((Letter.ofSet _).or ((Letter.ofSet _).or .none)).congr fun char => ?_
  simp [CharSet.contains_range, isAlpha_eq, Char.le_def, Bool.or_comm]

theorem letter_digit : Letter (depth + 1) (.call "digit") Char.isDigit (named "digit") := by
  refine .call (by simp [rules]; rfl) ?_
  refine (Letter.ofSet _).congr fun char => ?_
  simp [CharSet.contains_range, Char.isDigit]

theorem letter_alnum : Letter (depth + 2) (.call "alnum") Char.isAlphanum (named "alnum") := by
  refine .call (by simp [rules]; rfl) ?_
  refine (letter_alpha.or (letter_digit.or .none)).congr fun char => ?_
  simp [Char.isAlphanum]

theorem letter_hexDigit :
    Letter (depth + 2) (.call "hex-digit") isHexDigit (named "hex-digit") := by
  refine .call (by simp [rules]; rfl) ?_
  refine (letter_digit.or ((Letter.ofSet _).or ((Letter.ofSet _).or .none))).congr fun char => ?_
  simp [CharSet.contains_range, isHexDigit, Bool.or_assoc, Char.le_def]

theorem letter_nameChar : Letter (depth + 3) (.call "name-char")
    (fun char => char.isAlphanum || isJoiner char) (named "name-char") := by
  refine .call (by simp [rules]; rfl) ?_
  refine (letter_alnum.or ((Letter.literal '-' rfl).or ((Letter.literal '+' rfl).or .none))).congr
    fun char => ?_
  simp [isJoiner]

theorem letter_joiner :
    Letter (depth + 1) (.call "name-joiner") isJoiner (named "name-joiner") := by
  refine .call (by simp [rules]; rfl) ?_
  refine ((Letter.literal '-' rfl).or ((Letter.literal '+' rfl).or .none)).congr fun char => ?_
  simp [isJoiner]

theorem letter_space : Letter (depth + 1) (.call "s-space") isSpace (named "s-space") := by
  refine .call (by simp [rules]; rfl) ?_
  refine ((Letter.ofSet _).or ((Letter.ofSet _).or .none)).congr fun char => ?_
  simp [CharSet.contains_single, isSpace, Char.ext_iff]

theorem letter_break :
    Letter (depth + 1) (.call "b-break") Piece.breaksLine (named "b-break") := by
  refine .call (by simp [rules]; rfl) ?_
  refine ((Letter.ofSet _).or ((Letter.ofSet _).or .none)).congr fun char => ?_
  simp [CharSet.contains_single, Piece.breaksLine, Char.ext_iff]

theorem toNat_lt (char : Char) : char.toNat < 1114112 := by
  have valid := char.valid
  simp only [UInt32.isValidChar, Nat.isValidChar, Char.toNat_val] at valid
  omega

/-- The characters apart from some listed ones, once the ranges that remain are known. -/
theorem letter_anyExcept {excluded : List Char} (ranges : List CodeRange)
    (remain : CharSet.any.minus (.ofRanges (excluded.map fun char => .point char.val)) = ⟨ranges⟩)
    (ascending : CharSet.Ascending ranges) :
    Letter depth (anyExcept excluded) (fun char => ranges.any (·.has char.val)) anything :=
  (Letter.ofSet _).congr fun char => by
    rw [remain, CharSet.contains, CharSet.has_eq_any ascending]

theorem letter_lineChar :
    Letter depth (anyExcept ['\n', '\r']) (fun char => !Piece.breaksLine char) anything := by
  refine (letter_anyExcept [⟨0, 9⟩, ⟨11, 12⟩, ⟨14, 1114111⟩] rfl (by decide)).congr fun char => ?_
  have below := toNat_lt char
  rw [Bool.eq_iff_iff]
  simp [Piece.breaksLine, Char.ext_iff, CodeRange.has, UInt32.le_iff_toNat_le, ← UInt32.toNat_inj]
  omega

theorem letter_singleQuoted : Letter (depth + 1) (.call "single-quoted-char")
    (fits '\'') (named "single-quoted-char") := by
  refine .call (by simp [rules]; rfl) ?_
  refine (letter_anyExcept [⟨0, 9⟩, ⟨11, 12⟩, ⟨14, 38⟩, ⟨40, 1114111⟩] rfl (by decide)).congr
    fun char => ?_
  have below := toNat_lt char
  rw [Bool.eq_iff_iff]
  simp [fits, Piece.breaksLine, Char.ext_iff, CodeRange.has, UInt32.le_iff_toNat_le,
    ← UInt32.toNat_inj]
  omega

theorem letter_doubleQuoted : Letter (depth + 1) (.call "double-quoted-char")
    (fits '"') (named "double-quoted-char") := by
  refine .call (by simp [rules]; rfl) ?_
  refine (letter_anyExcept [⟨0, 9⟩, ⟨11, 12⟩, ⟨14, 33⟩, ⟨35, 1114111⟩] rfl (by decide)).congr
    fun char => ?_
  have below := toNat_lt char
  rw [Bool.eq_iff_iff]
  simp [fits, Piece.breaksLine, Char.ext_iff, CodeRange.has, UInt32.le_iff_toNat_le,
    ← UInt32.toNat_inj]
  omega

/-! ### Blanks and comments -/

/-- Whether a character starts something that is ignored. -/
def opensIgnorable (char : Char) : Bool := isBlank char || char = '#' || char = '/'

/-- Text that is ignored: blanks, and line comments up to their line breaks. -/
inductive Ignorable : List Char → Prop where
  | nil : Ignorable []
  | blank {char : Char} {more : List Char} (blank : isBlank char = true) (later : Ignorable more) :
      Ignorable (char :: more)
  | comment {line more : List Char} (single : ∀ char ∈ line, Piece.breaksLine char = false)
      (later : Ignorable ('\n' :: more)) : Ignorable ('#' :: (line ++ '\n' :: more))

theorem Ignorable.of_blank (all : ∀ char ∈ chars, isBlank char = true) : Ignorable chars := by
  induction chars with
  | nil => exact .nil
  | cons char chars induction =>
      exact .blank (all char List.mem_cons_self)
        (induction fun other member => all other (List.mem_cons_of_mem _ member))

theorem takes_comment {line : List Char} (single : ∀ char ∈ line, Piece.breaksLine char = false)
    (stops : ∀ char ∈ rest.head?, Piece.breaksLine char = true) :
    Takes (depth + 2) (.call "comment") ('#' :: line) rest anything := by
  have inside : Takes depth (.zeroOrMore (anyExcept ['\n', '\r'])) line rest anything :=
    letter_lineChar.zeroOrMore gathers_anything (fun char member => by simp [single char member])
      (fun char member => by simp [stops char member])
  have whole := ((takes_literal "#" rfl).andThen (inside.last)).call
    "line-comment" (by simp [rules])
  have choice := whole.first.call "comment" (by simp [rules]; rfl)
  simpa using choice.anything

/-- One thing that is ignored. -/
def ignored : Node := .first [.call "s-space", .call "b-break", .call "comment"]

theorem takes_blank {char : Char} (blank : isBlank char = true) :
    Takes (depth + 2) ignored [char] rest anything := by
  by_cases space : isSpace char = true
  · exact (letter_space.takes space).anything.first
  · have lineBreak : Piece.breaksLine char = true := by simpa [isBlank, space] using blank
    exact (letter_space.refuses (by simpa using space)).orElse
      (letter_break.takes lineBreak).anything.first

theorem refuses_ignored (other : ∀ char ∈ ahead.head?, opensIgnorable char = false) :
    Refuses (depth + 2) ignored ahead := by
  have apart : ∀ char ∈ ahead.head?,
      (isSpace char = false ∧ Piece.breaksLine char = false) ∧ char ≠ '#' ∧ char ≠ '/' := by
    intro char member
    simpa [opensIgnorable, isBlank, and_assoc] using other char member
  have lineComment : Refuses (depth + 1) (.call "line-comment") ahead :=
    refuses_opening _ "#" '#' (by simp [rules]; rfl) rfl fun same => (apart _ same).2.1 rfl
  have blockComment : Refuses (depth + 1) (.call "block-comment") ahead :=
    refuses_opening _ "/*" '/' (by simp [rules]; rfl) rfl fun same => (apart _ same).2.2 rfl
  have comment : Refuses (depth + 2) (.call "comment") ahead :=
    (lineComment.both (blockComment.both refuses_none)).call _ (by simp [rules])
  exact (letter_space.refuses fun char member => (apart char member).1.1).both
    ((letter_break.refuses fun char member => (apart char member).1.2).both
      (comment.both refuses_none))

/-- Ignorable text is taken up to the first character that ends it. -/
theorem takes_ignorable (ignorable : Ignorable chars)
    (stops : ∀ char ∈ rest.head?, opensIgnorable char = false) :
    Takes (depth + 3) (.call "s-ignorable") chars rest (named "s-ignorable") := by
  have inside : Takes (depth + 2) (.zeroOrMore ignored) chars rest anything := by
    induction ignorable with
    | nil => exact (refuses_ignored stops).zeroOrMore.anything
    | blank blank _ induction =>
        exact ((takes_blank blank).zeroOrMore (by simp) induction).anything
    | comment single later induction =>
        rename_i line more
        have head : Takes (depth + 2) ignored ('#' :: line) ('\n' :: more ++ rest) anything :=
          (letter_space.refuses (by simp [isSpace])).orElse
            ((letter_break.refuses (by simp [Piece.breaksLine])).orElse
              (takes_comment single (by simp [Piece.breaksLine])).first)
        exact (head.zeroOrMore (by simp) induction).anything
  exact (inside.call "s-ignorable" (by simp [rules, ignored])).named

/-! ### Names -/

/-- Whether characters continue a name: each joiner stands before a letter or digit. -/
def continuesName : List Char → Bool
  | [] => true
  | [char] => char.isAlphanum
  | char :: next :: rest =>
      if char.isAlphanum then continuesName (next :: rest)
      else isJoiner char && next.isAlphanum && continuesName rest

/-- Whether characters are a name. -/
def isName : List Char → Bool
  | [] => false
  | char :: rest => char.isAlpha && continuesName rest

theorem isAlpha_of_isName {char : Char} (valid : isName (char :: chars) = true) :
    char.isAlpha = true :=
  (Bool.and_eq_true_iff.mp valid).1

/-- Whether characters end the name before them. -/
def endsName : List Char → Bool
  | [] => true
  | [char] => !char.isAlphanum
  | char :: next :: _ => !char.isAlphanum && !(isJoiner char && next.isAlphanum)

/-- What continues a name. -/
def nameStep : Node := .first [.call "alnum", .sequence [.call "name-joiner", .call "alnum"]]

theorem head_of_endsName (ends : endsName rest = true) :
    ∀ char ∈ rest.head?, char.isAlphanum = false := by
  intro char member
  cases rest with
  | nil => cases member
  | cons head rest =>
      obtain rfl : head = char := by simpa using member
      cases rest <;> simp_all [endsName]

private theorem refuses_nameStep (ends : endsName rest = true) :
    Refuses (depth + 2) nameStep rest := by
  have joined : Refuses (depth + 2) (.sequence [.call "name-joiner", .call "alnum"]) rest := by
    by_cases joins : ∀ char ∈ rest.head?, isJoiner char = false
    · exact (letter_joiner.refuses joins).sequence
    · cases rest with
      | nil => simp at joins
      | cons char rest =>
          have joiner : isJoiner char = true := by simpa using joins
          refine (letter_joiner.takes joiner).refuses (letter_alnum.refuses ?_).sequence
          intro next member
          cases rest with
          | nil => cases member
          | cons head rest =>
              obtain rfl : head = next := by simpa using member
              simpa [endsName, joiner] using (Bool.and_eq_true_iff.mp ends).2
  exact (letter_alnum.refuses (head_of_endsName ends)).both (joined.both refuses_none)

private theorem takes_nameSteps (continues : continuesName chars = true)
    (ends : endsName rest = true) :
    Takes (depth + 2) (.zeroOrMore nameStep) chars rest anything := by
  fun_induction continuesName chars with
  | case1 => exact (refuses_nameStep ends).zeroOrMore.anything
  | case2 char =>
      have head : Takes (depth + 2) nameStep [char] ([] ++ rest) anything :=
        (letter_alnum.takes continues).anything.first
      exact (head.zeroOrMore (by simp) (refuses_nameStep ends).zeroOrMore).anything
  | case3 char next more alnum induction =>
      have head : Takes (depth + 2) nameStep [char] (next :: more ++ rest) anything :=
        (letter_alnum.takes alnum).anything.first
      exact (head.zeroOrMore (by simp) (induction continues)).anything
  | case4 char next more other induction =>
      simp only [Bool.and_eq_true] at continues
      obtain ⟨⟨joiner, alnum⟩, continues⟩ := continues
      have both : Takes (depth + 2) _ ([char] ++ [next]) (more ++ rest) _ :=
        (letter_joiner.takes joiner).andThen ((letter_alnum.takes alnum).last)
      have head : Takes (depth + 2) nameStep [char, next] (more ++ rest) anything :=
        (letter_alnum.refuses (by simpa using other)).orElse both.anything.first
      exact (head.zeroOrMore (by simp) (induction continues)).anything

theorem takes_name (valid : isName chars = true) (ends : endsName rest = true) :
    Takes (depth + 3) (.call "production-name") chars rest
      (anything.under "production-name" chars) := by
  cases chars with
  | nil => cases valid
  | cons char chars =>
      have continues : continuesName chars = true := (Bool.and_eq_true_iff.mp valid).2
      have row : Takes (depth + 2) _ ([char] ++ chars) rest _ :=
        (letter_alpha.takes (isAlpha_of_isName valid)).andThen
          (takes_nameSteps continues ends).last
      simpa using row.anything.call "production-name" (by simp [rules, nameStep])

/-! ### Code points -/

/-- Whether a name starts like a code point. -/
def isHexLike : List Char → Bool
  | 'x' :: more =>
      (more.head?.any isHexDigit) && !((more.dropWhile isHexDigit).head?.any Char.isAlphanum)
  | _ => false

theorem isAlphanum_of_isHexDigit {char : Char} (hex : isHexDigit char = true) :
    char.isAlphanum = true := by
  simp only [isHexDigit, Char.isAlphanum, isAlpha_eq, Bool.or_eq_true, Bool.and_eq_true,
    decide_eq_true_eq, Char.le_def, UInt32.le_iff_toNat_le] at hex ⊢
  simp at hex ⊢
  rcases hex with (digit | lower) | upper
  · exact .inr digit
  · exact .inl (by omega)
  · exact .inl (by omega)

theorem takes_hexChar {digits : List Char} (some : digits ≠ [])
    (all : ∀ digit ∈ digits, isHexDigit digit = true)
    (ends : ∀ char ∈ rest.head?, char.isAlphanum = false) :
    Takes (depth + 3) (.call "hex-char") ('x' :: digits) rest
      (anything.under "hex-char" ('x' :: digits)) := by
  have stops : ∀ char ∈ rest.head?, isHexDigit char = false := fun char member => by
    by_contra hex
    have alnum := isAlphanum_of_isHexDigit (by simpa using hex)
    simp [ends char member] at alnum
  have run : Takes (depth + 2) (.oneOrMore (.call "hex-digit")) digits rest anything := by
    cases digits with
    | nil => exact absurd rfl some
    | cons digit digits => exact letter_hexDigit.oneOrMore (gathers_named _) all stops
  have row : Takes (depth + 2) _ (['x'] ++ (digits ++ [])) rest _ :=
    (takes_literal "x" rfl).andThen (run.andThen ((letter_alnum.refuses ends).notAhead.last))
  simpa using row.anything.call "hex-char" (by simp [rules])

/-- Behind an `x` and a digit that start no code point, all digits stand before a letter. -/
theorem exists_letter_behind {digit : Char} {more : List Char}
    (other : isHexLike ('x' :: digit :: more) = false) (hex : isHexDigit digit = true) :
    ∃ run next tail, more = run ++ next :: tail ∧ (∀ char ∈ run, isHexDigit char = true) ∧
      isHexDigit next = false ∧ next.isAlphanum = true := by
  have split := List.takeWhile_append_dropWhile (p := isHexDigit) (l := more)
  have stops := List.head?_dropWhile_not isHexDigit more
  have letter : (more.dropWhile isHexDigit).head?.any Char.isAlphanum = true := by
    simpa [isHexLike, hex] using other
  cases after : more.dropWhile isHexDigit with
  | nil => simp [after] at letter
  | cons next tail =>
      simp only [after, List.head?_cons, Option.any_some] at split stops letter
      exact ⟨_, next, tail, split.symm, fun char => List.mem_takeWhile_imp, by simpa using stops,
        letter⟩

/-- A name that does not start like a code point is not read as one. -/
theorem refuses_hexChar (valid : isName chars = true) (other : isHexLike chars = false)
    (ends : ∀ char ∈ rest.head?, char.isAlphanum = false) :
    Refuses (depth + 3) (.call "hex-char") (chars ++ rest) := by
  cases chars with
  | nil => cases valid
  | cons char more =>
      by_cases opens : char = 'x'
      · subst opens
        refine Refuses.call _ ?_ (by simp [rules]; rfl)
        refine (takes_literal "x" rfl : Takes _ _ ['x'] (more ++ rest) _).refuses ?_
        cases more with
        | nil =>
            refine (letter_hexDigit.refuses fun char member => ?_).oneOrMore.sequence
            have plain := ends char member
            exact Bool.eq_false_iff.mpr fun hex => by simp [isAlphanum_of_isHexDigit hex] at plain
        | cons digit more =>
            by_cases hex : isHexDigit digit = true
            · obtain ⟨run, next, tail, rfl, all, stops, letter⟩ := exists_letter_behind other hex
              have digits : Takes (depth + 2) (.oneOrMore (.call "hex-digit")) (digit :: run)
                  (next :: tail ++ rest) anything :=
                letter_hexDigit.oneOrMore (gathers_named _) (by simpa [hex] using all)
                  (by simpa using stops)
              have alnum : Takes (depth + 2) (.call "alnum") [next] (tail ++ rest) (named _) :=
                letter_alnum.takes letter
              exact (digits.refuses alnum.notAhead.sequence).of_eq (by simp)
            · exact (letter_hexDigit.refuses (by simpa using hex)).oneOrMore.sequence
      · exact refuses_opening _ "x" 'x' (by simp [rules]; rfl) rfl (by simpa using opens)

/-! ### Quotes -/

theorem takes_quotedString {quote : Char} {run : List Char} (known : isQuote quote = true)
    (some : run ≠ []) (all : ∀ char ∈ run, fits quote char = true) :
    Takes (depth + 2) (.call "quoted-string") (quote :: (run ++ [quote])) rest
      (anything.under "quoted-string" (quote :: (run ++ [quote]))) := by
  obtain ⟨char, run, rfl⟩ := List.exists_cons_of_ne_nil some
  obtain rfl | rfl : quote = '\'' ∨ quote = '"' := by simpa [isQuote] using known
  · have inside : Takes (depth + 1) (.oneOrMore (.call "single-quoted-char")) (char :: run)
        (['\''] ++ rest) anything :=
      letter_singleQuoted.oneOrMore (gathers_named _) all (by simp [fits])
    have row : Takes (depth + 1) _ (['\''] ++ (char :: run ++ ['\''])) rest _ :=
      (takes_literal "'" rfl).andThen (inside.andThen ((takes_literal "'" rfl).last))
    simpa using row.first.anything.call "quoted-string" (by simp [rules]; rfl)
  · have inside : Takes (depth + 1) (.oneOrMore (.call "double-quoted-char")) (char :: run)
        (['"'] ++ rest) anything :=
      letter_doubleQuoted.oneOrMore (gathers_named _) all (by simp [fits])
    have row : Takes (depth + 1) _ (['"'] ++ (char :: run ++ ['"'])) rest _ :=
      (takes_literal "\"" rfl).andThen (inside.andThen ((takes_literal "\"" rfl).last))
    have other : Refuses (depth + 1) (.literal "'") ('"' :: (char :: run ++ ['"']) ++ rest) :=
      refuses_literal "'" '\'' rfl (by simp)
    exact (other.sequence.orElse (row.first.anything.of_eq (by simp))).call "quoted-string"
      (by simp [rules]; exact ⟨rfl, rfl⟩)

theorem takes_quotedChar {quote char : Char} (known : isQuote quote = true)
    (fit : fits quote char = true) :
    Takes (depth + 2) (.call "quoted-char") [quote, char, quote] rest
      (anything.under "quoted-char" [quote, char, quote]) := by
  obtain rfl | rfl : quote = '\'' ∨ quote = '"' := by simpa [isQuote] using known
  · have row : Takes (depth + 1) _ (['\''] ++ ([char] ++ ['\''])) rest _ :=
      (takes_literal "'" rfl).andThen
        ((letter_singleQuoted.takes fit).andThen ((takes_literal "'" rfl).last))
    exact row.first.anything.call "quoted-char" (by simp [rules]; rfl)
  · have row : Takes (depth + 1) _ (['"'] ++ ([char] ++ ['"'])) rest _ :=
      (takes_literal "\"" rfl).andThen
        ((letter_doubleQuoted.takes fit).andThen ((takes_literal "\"" rfl).last))
    have other : Refuses (depth + 1) (.literal "'") (['"', char, '"'] ++ rest) :=
      refuses_literal "'" '\'' rfl (by simp)
    exact (other.sequence.orElse row.first.anything).call "quoted-char"
      (by simp [rules]; exact ⟨rfl, rfl⟩)

/-! ### Names in angle brackets -/

theorem takes_special (some : chars ≠ [])
    (all : ∀ char ∈ chars, (char.isAlphanum || isJoiner char) = true) :
    Takes (depth + 4) (.call "special") ('<' :: (chars ++ ['>'])) rest
      (anything.under "special" ('<' :: (chars ++ ['>']))) := by
  have run : Takes (depth + 3) (.oneOrMore (.call "name-char")) chars (['>'] ++ rest) anything := by
    cases chars with
    | nil => exact absurd rfl some
    | cons char chars => exact letter_nameChar.oneOrMore (gathers_named _) all (by simp [isJoiner])
  have row : Takes (depth + 3) _ (['<'] ++ (chars ++ ['>'])) rest _ :=
    (takes_literal "<" rfl).andThen (run.andThen ((takes_literal ">" rfl).last))
  simpa using row.anything.call "special" (by simp [rules])

end Dialect

end Bnf

end ParametricGrammar
