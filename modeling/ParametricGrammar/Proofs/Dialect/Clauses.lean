import ParametricGrammar.Proofs.Dialect.Rows
/-!
# Texts of clauses

A clause is a name with a body behind it, perhaps with a section number before it and a parameter
list behind it. Clauses on a line each are read as a whole text.
-/

namespace ParametricGrammar

namespace Bnf

namespace Dialect

variable {depth nesting : ℕ} {name chars body rest lead : List Char} {stands : Stands}
  {label list : Option Item} {items : List Item}

/-! ### Section numbers -/

/-- A section number before a clause is read before what is not ignored. -/
def ReadsLabel (label : Option Item) : Prop :=
  ∀ item ∈ label, (∃ more, item.chars = '[' :: more) ∧
    ∀ {depth : ℕ} {rest : List Char}, (∀ char ∈ rest.head?, opensIgnorable char = false) →
      Takes (depth + 4) (.call "section-number") item.chars rest (one "section-number" item.stands)

theorem readsLabel_none : ReadsLabel none := fun _ member => by cases member

theorem takes_label (reads : ReadsLabel label) (valid : isName name = true) :
    Takes (depth + 4) (.optional (.call "section-number")) (optionalChars label) (name ++ rest)
      (Maybe "section-number" label) := by
  cases label with
  | none => exact (refuses_sectionNumber (head?_ne_of_isName valid rfl rest)).optional
  | some item =>
      obtain ⟨char, more, same, opens⟩ := exists_opens_of_isName valid rest
      have plain := (plain_of_opensAtom opens).1
      exact ((reads item rfl).2 (by rw [same]; simpa using plain)).optional

/-! ### Clauses -/

/-- How a clause is written. -/
def clauseChars (label : Option Item) (name : List Char) (list : Option Item) (body : List Char) :
    List Char :=
  optionalChars label ++
    (name ++ (optionalChars list ++ ([' '] ++ ([':', ':', '='] ++ ' ' :: body))))

/-- What the parts of a clause stand for. -/
structure ClauseParts (label : Option Item) (name : List Char) (list : Option Item)
    (stands : Stands) (source : List Char) (tree : Tree) : Prop where
  label : Option.Rel (fun item tree => item.stands source tree) label
    (tree.child? "section-number")
  name : ∃ part, tree.child? "production-name" = some part ∧ WrittenAs name source part
  list : Option.Rel (fun item tree => item.stands source tree) list
    (tree.child? "parameter-list")
  body : ∃ part, tree.child? "alternation" = some part ∧ stands source part

/-- A clause is taken behind ignorable text, at any depth that leaves room for the nesting of its
body, and its tree stands for something. -/
structure ReadsClause (nesting : ℕ) (chars : List Char) (stands : Stands) : Prop where
  starts : ∀ tail, StartsClause (chars ++ tail)
  takes : ∀ {depth : ℕ} {lead rest : List Char}, nesting ≤ depth → Ignorable lead →
    EndsAlternation rest →
      Takes (depth + 9) (.call "production") (lead ++ chars) rest (one "production" stands)

theorem ReadsClause.imp {others : Stands} (reads : ReadsClause nesting chars stands)
    (implies : ∀ source tree, tree.name = "production" → stands source tree →
      others source tree) : ReadsClause nesting chars others := by
  refine ⟨reads.starts, fun deep ignorable ends =>
    (reads.takes deep ignorable ends).imp fun source trees found => ?_⟩
  obtain ⟨tree, rfl, kind, holds⟩ := found
  exact ⟨tree, rfl, kind, implies source tree kind holds⟩

theorem ReadsClause.mono {deeper : ℕ} (reads : ReadsClause nesting chars stands)
    (le : nesting ≤ deeper) : ReadsClause deeper chars stands :=
  ⟨reads.starts, fun deep => reads.takes (le.trans deep)⟩

private theorem exists_opens_of_label (reads : ReadsLabel label) (valid : isName name = true)
    (tail : List Char) : ∃ char more, optionalChars label ++ (name ++ tail) = char :: more ∧
      (char.isAlpha = true ∨ char = '[') := by
  cases label with
  | none =>
      cases name with
      | nil => cases valid
      | cons char more => exact ⟨char, _, rfl, .inl (isAlpha_of_isName valid)⟩
  | some item =>
      obtain ⟨⟨more, same⟩, -⟩ := reads item rfl
      exact ⟨'[', _, by rw [optionalChars, Option.elim_some, same]; rfl, .inr rfl⟩

theorem plain_of_opensClause {char : Char} (opens : char.isAlpha = true ∨ char = '[') :
    opensIgnorable char = false ∧ char ∉ [':', '-', '|', ')', ']'] := by
  rcases opens with alpha | rfl
  · exact plain_of_opensAtom (opensAtom_of_isAlpha alpha)
  · exact plain_of_opensAtom rfl

private theorem endsName_before_body (lists : ReadsList list) (tail : List Char) :
    endsName (optionalChars list ++ ([' '] ++ tail) ++ rest) = true := by
  rw [List.append_assoc]
  refine endsName_optionalChars lists ?_
  change endsName (' ' :: (tail ++ rest)) = true
  cases tail ++ rest <;> rfl

/-- A name with a body, a number perhaps before it and a list perhaps behind it, is a clause. -/
theorem ReadsClause.of_body (reads : ReadsBody nesting body stands) (labels : ReadsLabel label)
    (valid : isName name = true) (lists : ReadsList list) :
    ReadsClause nesting (clauseChars label name list body)
      (ClauseParts label name list stands) where
  starts tail := by
    refine ⟨?_, fun depth => ⟨optionalChars label ++
      (name ++ (optionalChars list ++ ([' '] ++ [':', ':', '=']))), ' ' :: body ++ tail,
        by simp [clauseChars], ?_⟩⟩
    · rw [clauseChars, List.append_assoc, List.append_assoc]
      exact exists_opens_of_label labels valid _
    · have row : Takes (depth + 7) _ (optionalChars label ++
          (name ++ (optionalChars list ++ ([' '] ++ [':', ':', '='])))) (' ' :: body ++ tail) _ :=
        ((takes_label labels valid).of_rest (List.append_assoc _ _ _)).andThen
          ((takes_name valid (endsName_before_body lists _)).andThen
              ((takes_list lists (by simp)).andThen ((Dialect.takes_space rfl).andThen
                (takes_literal "::=" rfl).last)))
      exact (row.call "production-head" (by simp [rules])).anything
  takes {depth lead rest} deep ignorable ends := by
    obtain ⟨char, more, same, opens⟩ := exists_opens_of_label labels valid
      (optionalChars list ++ ([' '] ++ ([':', ':', '='] ++ ' ' :: body)) ++ rest)
    have before : Takes (depth + 8) (.call "s-ignorable") lead
        (clauseChars label name list body ++ rest) (named "s-ignorable") := by
      refine takes_ignorable ignorable fun other member => ?_
      rw [clauseChars, List.append_assoc, List.append_assoc, same] at member
      obtain rfl : char = other := by simpa using member
      exact (plain_of_opensClause opens).1
    have row : Takes (depth + 8) _ (lead ++ clauseChars label name list body) rest _ :=
      before.andThen (((takes_label labels valid).of_rest (List.append_assoc _ _ _)).andThen
        ((takes_name valid (endsName_before_body lists _)).andThen
            ((takes_list lists (by simp)).andThen ((Dialect.takes_space rfl).andThen
              ((takes_literal "::=" rfl).andThen (reads.takes deep ends).last)))))
    simp only [silent_andThen] at row
    refine (row.call "production" (by simp [rules])).translate fun source tree _ _ inside => ?_
    obtain ⟨blanks, _, split, ignored, numbers, _, rfl, numbered, _, _, rfl,
      ⟨part, rfl, named, text, -⟩, heads, _, rfl, headed, gap, _, rfl, gapped, alternatives, rfl,
      bodyNamed, holds⟩ := inside
    have found : ∀ kind, "s-ignorable" ≠ kind → tree.child? kind =
        (numbers.find? (·.name = kind)).or (([part].find? (·.name = kind)).or
          ((heads.find? (·.name = kind)).or ([alternatives].find? (·.name = kind)))) := by
      intro kind other
      rw [Tree.child?, split]
      simp only [List.find?_append, find?_of_named ignored other, find?_of_named gapped other,
        Option.none_or]
    have noNumber : ∀ kind, "section-number" ≠ kind → numbers.find? (·.name = kind) = none :=
      fun _ => find?_of_maybe numbered
    have noHead : ∀ kind, "parameter-list" ≠ kind → heads.find? (·.name = kind) = none :=
      fun _ => find?_of_maybe headed
    refine ⟨?_, ⟨part, ?_, text⟩, ?_, alternatives, ?_, holds⟩
    · rw [found _ (by decide), noHead _ (by decide)]
      simpa [named, bodyNamed] using rel_of_maybe numbered
    · rw [found _ (by decide), noNumber _ (by decide)]
      simp [named]
    · rw [found _ (by decide), noNumber _ (by decide)]
      simpa [named, bodyNamed] using rel_of_maybe headed
    · rw [found _ (by decide), noNumber _ (by decide), noHead _ (by decide)]
      simp [named, bodyNamed]

/-! ### Texts -/

/-- A clause on the next line ends the body before it. -/
theorem ends_line {tail : List Char} (starts : StartsClause tail) :
    EndsAlternation ('\n' :: tail) := by
  obtain ⟨char, more, rfl, opens⟩ := starts.opens
  obtain ⟨plain, others⟩ := plain_of_opensClause opens
  simp only [List.mem_cons, not_or] at others
  have behind : visible ('\n' :: char :: more) = char :: more := visible_blank rfl plain
  refine ⟨⟨apart_blank rfl plain others.1, .inr (by rwa [behind])⟩, ?_⟩
  rw [behind]
  simpa using others.2.2.1

/-- Blanks up to the end of the text end the body before them. -/
theorem ends_blanks {trail : List Char} (blank : ∀ char ∈ trail, isBlank char = true) :
    EndsAlternation trail := by
  have none : visible trail = [] := List.dropWhile_eq_nil_iff.mpr blank
  have first : ∀ char ∈ trail.head?, isBlank char = true :=
    fun char member => blank char (List.mem_of_mem_head? member)
  exact ⟨⟨⟨first, by simp [none]⟩, .inl (by simp [none])⟩, by simp [none]⟩

private theorem refuses_production (ignorable : Ignorable lead) :
    Refuses (depth + 9) (.call "production") lead := by
  have blank : Takes (depth + 8) (.call "s-ignorable") lead [] (named "s-ignorable") :=
    takes_ignorable ignorable (by simp)
  have noName : Refuses (depth + 8) (.call "production-name") [] := refuses_name (by simp)
  have absent : Takes (depth + 8) (.optional (.call "section-number")) [] [] silent :=
    (refuses_sectionNumber (by simp)).optional
  exact ((blank.refuses (absent.refuses noName.sequence)).call _ (by simp [rules]; rfl)).of_eq
    (List.append_nil lead).symm

/-- Clauses on a line each. -/
def textOf (items : List Item) : List Char := items.flatMap fun item => item.chars ++ ['\n']

private theorem textOf_cons (first : Item) (more : List Item) :
    textOf (first :: more) = first.chars ++ (written ['\n'] more ++ ['\n']) := by
  induction more generalizing first with
  | nil => simp [textOf, written]
  | cons second more induction =>
      rw [textOf, List.flatMap_cons, ← textOf, induction]
      simp [written]

/-- Clauses behind ignorable text, and blanks behind them, are taken as a whole. -/
theorem takes_clauses {first : Item} {more : List Item} {trail : List Char}
    (ignorable : Ignorable lead)
    (each : ∀ item ∈ first :: more, ReadsClause nesting item.chars item.stands)
    (deep : nesting ≤ depth) (blank : ∀ char ∈ trail, isBlank char = true) :
    Takes (depth + 10) (.call "grammar")
      (lead ++ first.chars ++ written ['\n'] more ++ trail) []
      (one "grammar" fun source tree =>
        Stood "production" (first :: more) source tree.content) := by
  have continues : ∀ item ∈ more, ∀ tail, EndsAlternation (['\n'] ++ item.chars ++ tail) :=
    fun item member tail => ends_line ((each item (.tail _ member)).starts tail)
  have head := (each first List.mem_cons_self).takes deep ignorable
    (ends_written continues (ends_blanks blank))
  have tail := takes_written (by simp) continues
    (fun item member rest ends => ((each item (.tail _ member)).takes deep
      (.blank rfl .nil : Ignorable ['\n']) ends).imp fun _ _ => Stood.of_one)
    (refuses_production (.of_blank blank)) (ends_blanks blank)
  have some : lead ++ first.chars ≠ [] := by
    obtain ⟨char, more, same, -⟩ := ((each first List.mem_cons_self).starts []).opens
    rw [List.append_nil] at same
    simp [same]
  have blanks : Takes (depth + 9) (.call "s-ignorable") trail [] (named "s-ignorable") :=
    takes_ignorable (.of_blank blank) (by simp)
  have row : Takes (depth + 9) _
      (lead ++ first.chars ++ written ['\n'] more ++ (trail ++ [])) [] _ :=
    ((head.zeroOrMore some tail).of_rest (by simp)).andThen
      (blanks.andThen takes_endOfInput.last)
  refine ((row.of_eq (by simp)).call "grammar" (by simp [rules])).translate
    fun source tree _ _ inside => ?_
  obtain ⟨_, _, split, ⟨clause, others, rfl, one, later⟩, blanks, _, rfl, ignored, rfl⟩ := inside
  rw [split, List.append_nil]
  simpa using ((Stood.of_one one).append later).append (.of_named ignored (by decide))

/-- A text of clauses behind ignorable text is taken as a whole. -/
theorem takes_grammar (ignorable : Ignorable lead)
    (each : ∀ item ∈ items, ReadsClause nesting item.chars item.stands) (deep : nesting ≤ depth) :
    Takes (depth + 10) (.call "grammar") (lead ++ textOf items) []
      (one "grammar" fun source tree => Stood "production" items source tree.content) := by
  cases items with
  | nil =>
      have blank : Takes (depth + 9) (.call "s-ignorable") lead [] (named "s-ignorable") :=
        takes_ignorable ignorable (by simp)
      have row : Takes (depth + 9) _ ([] ++ (lead ++ [])) [] _ :=
        ((refuses_production ignorable).zeroOrMore.of_rest (by simp)).andThen
          (blank.andThen takes_endOfInput.last)
      simp only [silent_andThen, andThen_silent] at row
      refine ((row.of_eq (by simp [textOf])).call "grammar" (by simp [rules])).translate
        fun source tree _ _ blanks => .of_named blanks (by decide)
  | cons first more =>
      have blank : ∀ char ∈ ['\n'], isBlank char = true := by simp [isBlank, Piece.breaksLine]
      exact (takes_clauses ignorable each deep blank).of_eq (by simp [textOf_cons])

/-- What is taken as a whole text is derived as one, with a tree that has what is said of it. -/
theorem exists_tree_of_takes {chars : List Char}
    (takes : Takes depth (.call "grammar") chars [] (one "grammar" stands)) :
    ∃ root last, last.rest = [] ∧
      Derives grammar (depth : ℕ) outside (.node (.call "grammar")) .empty (.start chars)
        (.matched [root] last) ∧ stands chars root := by
  obtain ⟨last, spans, ends⟩ := Cursor.exists_spans
    (show (Cursor.start chars).rest = _ ++ [] from (List.append_nil _).symm)
  obtain ⟨_, derives, root, rfl, -, holds⟩ := takes outside (.start _) last spans ends
  exact ⟨root, last, ends, derives, holds⟩

/-- A text of clauses is derived as a whole, with a tree for each of them. -/
theorem exists_tree_of_reads (ignorable : Ignorable lead)
    (each : ∀ item ∈ items, ReadsClause nesting item.chars item.stands) :
    ∃ root last, last.rest = [] ∧
      Derives grammar (nesting + 10 : ℕ) outside (.node (.call "grammar")) .empty
        (.start (lead ++ textOf items)) (.matched [root] last) ∧
      Stood "production" items (lead ++ textOf items) root.content :=
  exists_tree_of_takes (takes_grammar ignorable each le_rfl)

/-! ### Groups -/

private theorem eraseDups_append {name : String} {front rest : List String} (some : front ≠ [])
    (same : ∀ other ∈ front, other = name) (fresh : name ∉ rest) :
    (front ++ rest).eraseDups = name :: rest.eraseDups := by
  cases front with
  | nil => exact absurd rfl some
  | cons first front =>
      obtain rfl := same first List.mem_cons_self
      have left : front.filter (fun other => !other == first) = [] := by
        rw [List.filter_eq_nil_iff]
        intro other member
        simp [same other (.tail _ member)]
      have right : rest.filter (fun other => !other == first) = rest := by
        rw [List.filter_eq_self]
        intro other member
        simpa using fun equal : other = first => fresh (equal ▸ member)
      rw [List.cons_append, List.eraseDups_cons, List.filter_append, left, right, List.nil_append]

/-- Clauses of one name after another are grouped as they stand. -/
theorem groups_flatMap {found : List (String × List Clause)}
    (some : ∀ group ∈ found, group.2 ≠ [])
    (named : ∀ group ∈ found, ∀ clause ∈ group.2, clause.name = group.1)
    (distinct : (found.map Prod.fst).Nodup) : groups (found.flatMap Prod.snd) = found := by
  induction found with
  | nil => rfl
  | cons group found induction =>
      rw [List.map_cons, List.nodup_cons] at distinct
      rw [List.forall_mem_cons] at some named
      have others : ∀ clause ∈ found.flatMap Prod.snd, clause.name ≠ group.1 := by
        intro clause member same
        obtain ⟨other, among, inside⟩ := List.mem_flatMap.mp member
        refine distinct.1 (List.mem_map.mpr ⟨other, among, ?_⟩)
        rw [← same, named.2 other among clause inside]
      have names : ((group.2 ++ found.flatMap Prod.snd).map Clause.name).eraseDups =
          group.1 :: ((found.flatMap Prod.snd).map Clause.name).eraseDups := by
        rw [List.map_append]
        refine eraseDups_append (by simpa using some.1) ?_ ?_
        · simpa using named.1
        · simpa using others
      have first : (group.2 ++ found.flatMap Prod.snd).filter (·.name = group.1) = group.2 := by
        rw [List.filter_append, List.filter_eq_self.mpr, List.filter_eq_nil_iff.mpr,
          List.append_nil]
        · simpa using others
        · simpa using named.1
      have later : groups (found.flatMap Prod.snd) =
          ((found.flatMap Prod.snd).map Clause.name).eraseDups.map fun name =>
            (name, (group.2 ++ found.flatMap Prod.snd).filter (·.name = name)) := by
        refine List.map_congr_left fun name member => ?_
        rw [List.mem_eraseDups, List.mem_map] at member
        obtain ⟨clause, inside, rfl⟩ := member
        have none : group.2.filter (·.name = clause.name) = [] := by
          rw [List.filter_eq_nil_iff]
          intro other among
          simpa [named.1 other among] using (others clause inside).symm
        rw [List.filter_append, none, List.nil_append]
      rw [List.flatMap_cons, groups, names, List.map_cons, first, ← later,
        induction some.2 named.2 distinct.2]

theorem exists_of_forall₂ {α β γ : Type} {left : α → γ → Prop} {right : β → γ → Prop}
    {items : List α} {others : List β}
    (all : List.Forall₂ (fun item other => ∃ value, left item value ∧ right other value)
      items others) :
    ∃ values, List.Forall₂ left items values ∧ List.Forall₂ right others values := by
  induction all with
  | nil => exact ⟨[], .nil, .nil⟩
  | cons head _ induction =>
      obtain ⟨value, here, there⟩ := head
      obtain ⟨values, lefts, rights⟩ := induction
      exact ⟨value :: values, .cons here lefts, .cons there rights⟩

end Dialect

end Bnf

end ParametricGrammar
