import ParametricGrammar.Proofs.Dialect.Ends
/-!
# Readings of grammar texts

A reading says that a production of the dialect takes a text wherever what ends it comes next, and
what its tree stands for. Readings of bodies are built from those of their parts as bodies are
written, whatever the parts stand for.
-/

namespace ParametricGrammar

namespace Bnf

namespace Dialect

/-- What a tree of a source stands for. -/
abbrev Stands := (source : List Char) → Tree → Prop

/-- A production takes a text before what ends it, at any depth that leaves room for the nesting of
the text, and its tree stands for something. -/
structure Reads (name : String) (ends : List Char → Prop) (nesting : ℕ) (chars : List Char)
    (stands : Stands) : Prop where
  opens : ∃ char more, chars = char :: more ∧ opensAtom char = true
  takes : ∀ {depth : ℕ} {rest : List Char}, nesting ≤ depth → ends rest →
    Takes (depth + 8) (.call name) chars rest (one name stands)
  noHead : ∀ {depth : ℕ} {rest : List Char}, ends rest →
    Refuses (depth + 8) (.call "production-head") (chars ++ rest)

/-- A text with what its tree stands for. -/
structure Item where
  chars : List Char
  stands : Stands

variable {depth nesting : ℕ} {chars rest ahead : List Char} {name : String}
  {ends : List Char → Prop} {stands others : Stands} {list : Option Item}

namespace Reads

theorem mono {deeper : ℕ} (reads : Reads name ends nesting chars stands)
    (le : nesting ≤ deeper) : Reads name ends deeper chars stands :=
  ⟨reads.opens, fun deep => reads.takes (le.trans deep), reads.noHead⟩

theorem imp (reads : Reads name ends nesting chars stands)
    (implies : ∀ source tree, tree.name = name → stands source tree → others source tree) :
    Reads name ends nesting chars others := by
  refine ⟨reads.opens, fun deep end_ => (reads.takes deep end_).imp fun source trees found => ?_,
    reads.noHead⟩
  obtain ⟨tree, rfl, kind, holds⟩ := found
  exact ⟨tree, rfl, kind, implies source tree kind holds⟩

theorem of_eq {text : List Char} (reads : Reads name ends nesting chars stands)
    (same : text = chars) : Reads name ends nesting text stands :=
  same ▸ reads

theorem takes_space (reads : Reads name ends nesting chars stands) {tail : List Char} :
    Takes (depth + 3) (.call "s-ignorable") [' '] (chars ++ tail) (named "s-ignorable") := by
  obtain ⟨char, more, rfl, opens⟩ := reads.opens
  exact Dialect.takes_space (plain_of_opensAtom opens).1

end Reads

/-- What each item has at some depth, and then at any deeper one, all have at one depth. -/
theorem exists_nesting {α : Type} {reads : ℕ → α → Prop} {items : List α}
    (mono : ∀ {nesting deeper : ℕ} {item : α}, nesting ≤ deeper → reads nesting item →
      reads deeper item)
    (each : ∀ item ∈ items, ∃ nesting, reads nesting item) :
    ∃ nesting, ∀ item ∈ items, reads nesting item := by
  induction items with
  | nil => exact ⟨0, by simp⟩
  | cons first items induction =>
      rw [List.forall_mem_cons] at each
      obtain ⟨left, head⟩ := each.1
      obtain ⟨right, tail⟩ := induction each.2
      refine ⟨max left right, List.forall_mem_cons.mpr ⟨mono (le_max_left _ _) head, ?_⟩⟩
      exact fun item member => mono (le_max_right _ _) (tail item member)

/-- What the text of a tree tells about it. -/
theorem Takes.translate {node : Node} {leaves : Leaves}
    (takes : Takes depth node chars rest (leaves.under name chars))
    (translates : ∀ source tree, tree.name = name → tree.text source = String.ofList chars →
      leaves source tree.content → stands source tree) :
    Takes depth node chars rest (one name stands) := by
  refine takes.imp fun source trees found => ?_
  obtain ⟨tree, rfl, kind, written, inside⟩ := found
  exact ⟨tree, rfl, kind, translates source tree kind written inside⟩

/-- A tree covers given characters. -/
def WrittenAs (chars : List Char) : Stands := fun source tree =>
  tree.text source = String.ofList chars

theorem Takes.written {node : Node} {leaves : Leaves}
    (takes : Takes depth node chars rest (leaves.under name chars)) :
    Takes depth node chars rest (one name (WrittenAs chars)) :=
  takes.translate fun _ _ _ written _ => written

/-! ### Optional parts -/

/-- The text of a part that may be missing. -/
def optionalChars (item : Option Item) : List Char := item.elim [] Item.chars

/-- The tree of a part that may be missing. -/
def Maybe (kind : String) : Option Item → Leaves
  | none => silent
  | some item => one kind item.stands

/-- A parameter list is read whatever comes next. -/
def ReadsList (list : Option Item) : Prop :=
  ∀ item ∈ list, (∃ more, item.chars = '(' :: more) ∧ ∀ {depth : ℕ} {rest : List Char},
    Takes (depth + 7) (.call "parameter-list") item.chars rest (one "parameter-list" item.stands)

theorem optionalChars_none : optionalChars none = [] := rfl

theorem readsList_none : ReadsList none := fun _ member => by cases member

theorem eq_none_of_rel {α β : Type} {relates : α → β → Prop} {found : Option β}
    (rel : Option.Rel relates none found) : found = none := by
  cases rel
  rfl

theorem exists_of_rel {α β : Type} {relates : α → β → Prop} {item : α} {found : Option β}
    (rel : Option.Rel relates (some item) found) :
    ∃ value, found = some value ∧ relates item value := by
  cases rel with
  | some related => exact ⟨_, rfl, related⟩

theorem takes_list (reads : ReadsList list) (other : rest.head? ≠ some '(') :
    Takes (depth + 7) (.optional (.call "parameter-list")) (optionalChars list) rest
      (Maybe "parameter-list" list) := by
  cases list with
  | none => exact (refuses_parameterList other).optional
  | some item => exact ((reads item rfl).2).optional

theorem endsName_optionalChars (reads : ReadsList list) (ends : endsName rest = true) :
    endsName (optionalChars list ++ rest) = true := by
  cases list with
  | none => exact ends
  | some item =>
      obtain ⟨⟨more, same⟩, -⟩ := reads item rfl
      rw [optionalChars, Option.elim_some, same]
      cases more <;> cases rest <;> rfl

theorem find?_of_named {kind other : String} {source : List Char} {trees : List Tree}
    (holds : named other source trees) (apart : other ≠ kind) :
    (trees.find? fun tree => tree.name = kind) = none := by
  rw [List.find?_eq_none]
  intro tree member
  simpa [holds tree member] using apart

theorem find?_of_maybe {kind other : String} {item : Option Item} {source : List Char}
    {trees : List Tree} (holds : Maybe other item source trees) (apart : other ≠ kind) :
    (trees.find? fun tree => tree.name = kind) = none := by
  cases item with
  | none =>
      obtain rfl : trees = [] := holds
      rfl
  | some item =>
      obtain ⟨tree, rfl, named, -⟩ := holds
      simpa [named] using apart

theorem rel_of_maybe {kind : String} {item : Option Item} {source : List Char}
    {trees : List Tree} (holds : Maybe kind item source trees) :
    Option.Rel (fun item tree => item.stands source tree) item
      (trees.find? fun tree => tree.name = kind) := by
  cases item with
  | none =>
      obtain rfl : trees = [] := holds
      exact .none
  | some item =>
      obtain ⟨tree, rfl, named, stands⟩ := holds
      simpa [named] using Option.Rel.some stands

/-- A name, perhaps with a parameter list, is not the head of a clause when an atom ends behind
it. -/
theorem refuses_head_of_name (valid : isName chars = true) (lists : ReadsList list)
    (ends : EndsAtom rest) :
    Refuses (depth + 8) (.call "production-head") (chars ++ optionalChars list ++ rest) := by
  have alpha : (chars ++ (optionalChars list ++ rest)).head? ≠ some '[' :=
    head?_ne_of_isName valid rfl _
  obtain ⟨blanks, behind, rfl, noColon, ignorable⟩ := ends.takes_blanks
  have label : Takes (depth + 7) (.optional (.call "section-number")) []
      (chars ++ (optionalChars list ++ (blanks ++ behind))) silent :=
    (refuses_sectionNumber alpha).optional
  have sign : Refuses (depth + 7) (.sequence [.literal "::="]) behind :=
    (refuses_literal "::=" ':' rfl noColon).sequence
  exact ((label.refuses ((takes_name valid (endsName_optionalChars lists ends.endsName)).refuses
    ((takes_list lists ends.noParameters).refuses ((ignorable _).refuses sign)))).call _
      (by simp [rules])).of_eq (List.append_assoc _ _ _)

/-! ### Choices of productions -/

/-- A tree whose only part is of a kind and stands for something. -/
def Sole (kind : String) (stands : Stands) : Stands := fun source tree =>
  ∃ part, tree.content = [part] ∧ part.name = kind ∧ stands source part

/-- A choice of productions is what its first matching alternative is. -/
theorem takes_sole {nodes : List Node} (rule : (name, .first nodes) ∈ rules) (before : List Node)
    (part : String) {after : List Node} (alternatives : nodes = before ++ .call part :: after)
    (refuse : ∀ other ∈ before, Refuses depth other (chars ++ rest))
    (takes : Takes depth (.call part) chars rest (one part stands)) :
    Takes (depth + 1) (.call name) chars rest (one name (Sole part stands)) := by
  have choice := takes.choice after refuse
  rw [← alternatives] at choice
  exact (choice.call name rule).translate fun _ _ _ _ inside => inside

/-! ### Atoms -/

/-- The alternatives of an atom. -/
def atomParts : List Node :=
  [ .call "lookaround", .call "special", .call "group", .call "code-point-range",
    .call "hex-char", .call "quoted-string", .call "any-char", .call "reference" ]

/-- An atom is what its first matching alternative is. -/
theorem takes_atom (before : List Node) (part : String) {after : List Node}
    (alternatives : atomParts = before ++ .call part :: after)
    (refuse : ∀ other ∈ before, Refuses (depth + 7) other (chars ++ rest))
    (takes : Takes (depth + 7) (.call part) chars rest (one part stands)) :
    Takes (depth + 8) (.call "atom") chars rest (one "atom" (Sole part stands)) :=
  takes_sole (by simp [rules, atomParts]) before part alternatives refuse takes

/-- One end of a range of code points. -/
structure RangeEnd where
  chars : List Char
  code : UInt32
  opens : ∃ char more, chars = char :: more ∧ char ∈ ['x', '\'', '"']
  reads : ∀ {depth : ℕ} {rest : List Char}, (∀ char ∈ rest.head?, char.isAlphanum = false) →
    Takes (depth + 4) (.call "range-bound") chars rest
      (one "range-bound" fun source tree => rangeBoundOf source tree = .ok code)

namespace RangeEnd

/-- An end by its code point. -/
def hex (digits : List Char) (code : ℕ) (all : digits.all isHexDigit = true)
    (value : Numeral.natural? 16 digits = some code)
    (valid : code ≤ CharSet.maxCodePoint.toNat) : RangeEnd where
  chars := 'x' :: digits
  code := UInt32.ofNat code
  opens := ⟨'x', _, rfl, by simp⟩
  reads ends := by
    have some : digits ≠ [] := by
      rintro rfl
      cases value
    refine ((takes_hexChar some (List.all_eq_true.mp all) ends).first.call "range-bound"
      (by simp [rules]; rfl)).translate fun source tree _ _ inside => ?_
    obtain ⟨part, only, kind, written, -⟩ := inside
    exact Denotes.rangeBoundOf_hex (by simp [Tree.child?, only, kind])
      (Denotes.hexOf_ok written value valid)

/-- An end by its character. -/
def quoted (quote char : Char) (known : isQuote quote = true) (fit : fits quote char = true) :
    RangeEnd where
  chars := [quote, char, quote]
  code := char.val
  opens := by
    obtain rfl | rfl : quote = '\'' ∨ quote = '"' := by simpa [isQuote] using known
    all_goals exact ⟨_, _, rfl, by simp⟩
  reads {depth rest} _ := by
    have other : Refuses (depth + 3) (.call "hex-char") ([quote, char, quote] ++ rest) := by
      obtain rfl | rfl : quote = '\'' ∨ quote = '"' := by simpa [isQuote] using known
      all_goals exact refuses_hexChar_of_ne (by simp)
    refine ((other.orElse (takes_quotedChar known fit).first).call "range-bound"
      (by simp [rules]; rfl)).translate fun source tree _ _ inside => ?_
    obtain ⟨part, only, kind, written, -⟩ := inside
    exact Denotes.rangeBoundOf_quoted (by simp [Tree.child?, only, kind])
      (by simp [Tree.child?, only, kind]) written

end RangeEnd

namespace Reads

/-- A name in angle brackets. -/
theorem special {letters : List Char} (some : letters ≠ [])
    (all : ∀ char ∈ letters, (char.isAlphanum || isJoiner char) = true) :
    Reads "atom" EndsAtom 0 ('<' :: (letters ++ ['>']))
      (Sole "special" (WrittenAs ('<' :: (letters ++ ['>'])))) where
  opens := ⟨'<', _, rfl, by decide⟩
  takes _ _ := by
    refine takes_atom [.call "lookaround"] "special" rfl ?_ (takes_special some all).written
    simpa using refuses_lookaround (by simp)
  noHead _ := refuses_head (by simp) (by simp)

/-- A code point. -/
theorem hex {digits : List Char} (some : digits ≠ [])
    (all : ∀ digit ∈ digits, isHexDigit digit = true) :
    Reads "atom" EndsAtom 0 ('x' :: digits)
      (Sole "hex-char" (WrittenAs ('x' :: digits))) where
  opens := ⟨'x', _, rfl, by decide⟩
  takes _ ends := by
    refine takes_atom bracketed "hex-char" rfl ?_ (takes_hexChar some all ends.head).written
    exact refuses_bracketed (by simp) (by simp) (by simp)
  noHead ends := by
    simpa [optionalChars_none] using refuses_head_of_name (isName_hex all) readsList_none ends

/-- A range between two ends. -/
theorem range (first last : RangeEnd) :
    Reads "atom" EndsAtom 0 ('[' :: (first.chars ++ '-' :: (last.chars ++ [']'])))
      (Sole "code-point-range" fun source tree =>
        rangeOf source tree = .ok (.ofRanges [⟨first.code, last.code⟩])) where
  opens := ⟨'[', _, rfl, by decide⟩
  takes {depth rest} _ _ := by
    refine takes_atom [.call "lookaround", .call "special", .call "group"] "code-point-range" rfl
      ?_ ?_
    · simp only [List.forall_mem_cons, List.not_mem_nil, false_imp_iff, implies_true, and_true]
      refine ⟨?_, refuses_special (by simp), refuses_group (by simp)⟩
      obtain ⟨char, more, same, member⟩ := first.opens
      rw [same]
      simp only [List.mem_cons, List.not_mem_nil, or_false] at member
      rcases member with rfl | rfl | rfl
      all_goals exact refuses_lookaround_of_bracket (by simp [isSpace]) (by simp)
    · have row : Takes (depth + 6) _
          (['['] ++ (first.chars ++ (['-'] ++ (last.chars ++ [']'])))) rest _ :=
        (takes_literal "[" rfl).andThen ((first.reads (by simp)).andThen
          ((takes_literal "-" rfl).andThen ((last.reads (by simp)).andThen
            ((takes_literal "]" rfl).last))))
      simp only [silent_andThen, andThen_silent] at row
      refine ((row.of_eq (by simp)).call "code-point-range" (by simp [rules])).translate
        fun source tree kind _ inside => ?_
      obtain ⟨_, _, split, ⟨left, rfl, nameLeft, readsLeft⟩, right, rfl, nameRight, readsRight⟩ :=
        inside
      refine Denotes.rangeOf_ok ?_ readsLeft readsRight
      simp [Tree.children, split, nameLeft, nameRight]
  noHead {depth rest} _ := by
    obtain ⟨char, more, same, member⟩ := first.opens
    rw [same]
    simp only [List.mem_cons, List.not_mem_nil, or_false] at member
    rcases member with rfl | rfl | rfl
    all_goals exact refuses_head (by simp) (by simp)

/-- A quoted text. -/
theorem quoted {quote : Char} {run : List Char} (known : isQuote quote = true) (some : run ≠ [])
    (all : run.all (fits quote) = true) :
    Reads "atom" EndsAtom 0 (quote :: (run ++ [quote]))
      (Sole "quoted-string" (WrittenAs (quote :: (run ++ [quote])))) where
  opens := by
    obtain rfl | rfl : quote = '\'' ∨ quote = '"' := by simpa [isQuote] using known
    all_goals exact ⟨_, _, rfl, by decide⟩
  takes _ _ := by
    refine takes_atom (bracketed ++ [.call "hex-char"]) "quoted-string" rfl ?_
      (takes_quotedString known some (List.all_eq_true.mp all)).written
    rw [List.forall_mem_append, List.forall_mem_singleton]
    obtain rfl | rfl : quote = '\'' ∨ quote = '"' := by simpa [isQuote] using known
    all_goals
      exact ⟨refuses_bracketed (by simp) (by simp) (by simp), refuses_hexChar_of_ne (by simp)⟩
  noHead _ := by
    obtain rfl | rfl : quote = '\'' ∨ quote = '"' := by simpa [isQuote] using known
    all_goals exact refuses_head (by simp) (by simp)

/-- The dot for any character. -/
theorem any : Reads "atom" EndsAtom 0 ['.'] (Sole "any-char" fun _ _ => True) where
  opens := ⟨'.', _, rfl, by decide⟩
  takes _ _ := by
    refine takes_atom (bracketed ++ [.call "hex-char", .call "quoted-string"]) "any-char" rfl
      ?_ ?_
    · rw [List.forall_mem_append, List.forall_mem_cons, List.forall_mem_singleton]
      exact ⟨refuses_bracketed (by simp) (by simp) (by simp), refuses_hexChar_of_ne (by simp),
        refuses_quotedString (by simp) (by simp)⟩
    · exact ((takes_literal "." rfl).call "any-char" (by simp [rules])).translate
        fun _ _ _ _ _ => trivial
  noHead _ := refuses_head (by simp) (by simp)

end Reads

/-- Alternatives of an atom that a name of a production is not taken for. -/
theorem refuses_before_reference {label : List Char} (valid : isName label = true)
    (other : isHexLike label = false) (ends : ∀ char ∈ rest.head?, char.isAlphanum = false) :
    ∀ part ∈ bracketed ++ [.call "hex-char", .call "quoted-string", .call "any-char"],
      Refuses (depth + 3) part (label ++ rest) := by
  have alpha : ∀ sign : Char, sign.isAlpha = false → (label ++ rest).head? ≠ some sign :=
    fun _ noAlpha => head?_ne_of_isName valid noAlpha rest
  simp only [List.forall_mem_append, List.forall_mem_cons, List.not_mem_nil, false_imp_iff,
    implies_true, and_true]
  exact ⟨refuses_bracketed (alpha _ rfl) (alpha _ rfl) (alpha _ rfl),
    refuses_hexChar valid other ends, refuses_quotedString (alpha _ rfl) (alpha _ rfl),
    refuses_anyChar (alpha _ rfl)⟩

theorem exists_opens_of_isName {label : List Char} (valid : isName label = true)
    (tail : List Char) : ∃ char more, label ++ tail = char :: more ∧ opensAtom char = true := by
  cases label with
  | nil => cases valid
  | cons char more =>
      exact ⟨char, _, rfl, opensAtom_of_isAlpha (isAlpha_of_isName valid)⟩

/-- A call of a production, perhaps with a list of arguments. -/
theorem Reads.reference {label : List Char} (valid : isName label = true)
    (other : isHexLike label = false) (lists : ReadsList list) :
    Reads "atom" EndsAtom 1 (label ++ optionalChars list)
      (Sole "reference" fun source tree =>
        (∃ part, tree.child? "production-name" = some part ∧ WrittenAs label source part) ∧
          Option.Rel (fun item tree => item.stands source tree) list
            (tree.child? "parameter-list")) where
  opens := exists_opens_of_isName valid _
  takes {depth rest} deep ends := by
    obtain ⟨depth, rfl⟩ := Nat.exists_eq_add_of_le' deep
    have apart : endsName (optionalChars list ++ rest) = true :=
      endsName_optionalChars lists ends.endsName
    refine takes_atom
      (bracketed ++ [.call "hex-char", .call "quoted-string", .call "any-char"]) "reference" rfl
      (fun part member => (refuses_before_reference valid other (head_of_endsName apart) part
        member).of_eq (List.append_assoc _ _ _)) ?_
    have row : Takes (depth + 7) _ (label ++ optionalChars list) rest _ :=
      (takes_name valid apart).andThen (takes_list lists ends.noParameters).last
    refine (row.call "reference" (by simp [rules])).translate fun source tree _ _ inside => ?_
    obtain ⟨_, heads, split, ⟨part, rfl, named, text, -⟩, headed⟩ := inside
    refine ⟨⟨part, by simp [Tree.child?, split, named], text⟩, ?_⟩
    simpa [Tree.child?, split, named] using rel_of_maybe headed
  noHead ends := refuses_head_of_name valid lists ends

/-! ### Quantifiers -/

theorem refuses_quantifier (apart : Apart rest) :
    Refuses (depth + 1) (.call "quantifier") rest := by
  have signs : ∀ sign ∈ ['?', '*', '+', '{'], rest.head? ≠ some sign := by
    intro sign member
    simp only [List.mem_cons, List.not_mem_nil, or_false] at member
    rcases member with rfl | rfl | rfl | rfl <;> exact apart.head_ne (by decide)
  exact ((refuses_literal "?" '?' rfl (signs _ (by simp))).both
    ((refuses_literal "*" '*' rfl (signs _ (by simp))).both
      ((refuses_literal "+" '+' rfl (signs _ (by simp))).both
        ((refuses_literal "\x7b" '{' rfl (signs _ (by simp))).sequence.both refuses_none)))).call
          _ (by simp [rules]; rfl)

private theorem takes_quantifier (mark : Mark) :
    Takes (depth + 1) (.call "quantifier") [mark.char] rest
      (anything.under "quantifier" [mark.char]) := by
  cases mark with
  | optional =>
      exact (takes_literal "?" rfl).first.anything.call _ (by simp [rules]; rfl)
  | zeroOrMore =>
      have other : Refuses depth (.literal "?") (['*'] ++ rest) :=
        refuses_literal "?" '?' rfl (by simp)
      exact (other.orElse (takes_literal "*" rfl).first).anything.call _ (by simp [rules]; rfl)
  | oneOrMore =>
      have others : ∀ other ∈ [Node.literal "?", .literal "*"],
          Refuses depth other (['+'] ++ rest) := by
        simp only [List.forall_mem_cons, List.not_mem_nil, false_imp_iff, implies_true, and_true]
        exact ⟨refuses_literal "?" '?' rfl (by simp), refuses_literal "*" '*' rfl (by simp)⟩
      exact ((takes_literal "+" rfl).choice _ others).anything.call _ (by simp [rules]; rfl)

namespace Reads

/-- An atom without a quantifier. -/
theorem plain (atom : Reads "atom" EndsAtom nesting chars stands) :
    Reads "quantified" Apart (nesting + 1) chars fun source tree =>
      ∃ part, tree.child? "atom" = some part ∧ stands source part ∧
        tree.child? "quantifier" = none where
  opens := atom.opens
  takes {depth rest} deep apart := by
    cases depth with
    | zero => exact absurd deep (Nat.not_succ_le_zero _)
    | succ depth =>
        have row : Takes (depth + 8) _ (chars ++ []) rest _ :=
          (atom.takes (Nat.le_of_succ_le_succ deep) (.inl apart)).andThen
            ((refuses_quantifier apart).optional.last)
        simp only [andThen_silent, List.append_nil] at row
        refine (row.call "quantified" (by simp [rules])).translate
          fun source tree kind _ inside => ?_
        obtain ⟨part, only, named, holds⟩ := inside
        exact ⟨part, by simp [Tree.child?, only, named], holds,
          by simp [Tree.child?, only, named]⟩
  noHead apart := atom.noHead (.inl apart)

/-- An atom with a quantifier, which has to be what may stand behind an atom. -/
theorem quantified {sign : List Char} {counts : Stands}
    (atom : Reads "atom" EndsAtom nesting chars stands)
    (quantifier : ∀ {depth : ℕ} {rest : List Char}, Apart rest →
      Takes (depth + 8) (.call "quantifier") sign rest (one "quantifier" counts))
    (allowed : ∀ {rest : List Char}, Apart rest → EndsAtom (sign ++ rest)) :
    Reads "quantified" Apart (nesting + 1) (chars ++ sign) fun source tree =>
      ∃ part behind, tree.child? "atom" = some part ∧ stands source part ∧
        tree.child? "quantifier" = some behind ∧ behind.name = "quantifier" ∧
          counts source behind where
  opens := by
    obtain ⟨char, more, same, opens⟩ := atom.opens
    exact ⟨char, more ++ sign, by rw [same]; rfl, opens⟩
  takes {depth rest} deep apart := by
    cases depth with
    | zero => exact absurd deep (Nat.not_succ_le_zero _)
    | succ depth =>
        have row : Takes (depth + 8) _ (chars ++ sign) rest _ :=
          (atom.takes (Nat.le_of_succ_le_succ deep) (allowed apart)).andThen
            ((quantifier apart).optional.last)
        refine (row.call "quantified" (by simp [rules])).translate
          fun source tree kind _ inside => ?_
        obtain ⟨_, _, split, ⟨part, rfl, named, holds⟩, behind, rfl, named', counted⟩ := inside
        exact ⟨part, behind, by simp [Tree.child?, split, named], holds,
          by simp [Tree.child?, split, named, named'], named', counted⟩
  noHead {depth rest} apart := (atom.noHead (allowed apart)).of_eq (List.append_assoc _ _ _)

/-- An atom with a mark. -/
theorem marked (atom : Reads "atom" EndsAtom nesting chars stands) (mark : Mark) :
    Reads "quantified" Apart (nesting + 1) (chars ++ [mark.char]) fun source tree =>
      ∃ part behind, tree.child? "atom" = some part ∧ stands source part ∧
        tree.child? "quantifier" = some behind ∧ behind.name = "quantifier" ∧
          WrittenAs [mark.char] source behind :=
  atom.quantified (fun _ => (takes_quantifier mark).written)
    fun apart => .inr (.inl ⟨mark, _, rfl, apart⟩)

end Reads

end Dialect

end Bnf

end ParametricGrammar
