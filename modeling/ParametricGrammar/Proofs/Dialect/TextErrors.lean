import ParametricGrammar.Proofs.Dialect.ClauseTranslation
import ParametricGrammar.Proofs.Dialect.PrintedClauses
import ParametricGrammar.Proofs.References
/-!
# Errors of the translation

Whatever a tree of a text is translated to, an error is one of the text, never one of a run, and it
points at what it is about: its span covers what it quotes, or a clause.
-/

namespace ParametricGrammar

/-! ### Spans -/

/-- A span covers given characters of a text. -/
def Span.Covers (span : Span) (source chars : List Char) : Prop :=
  slice? source span.start span.stop = some chars

/-- A span lies in a text, with both ends between characters. -/
structure Span.Within (span : Span) (source : List Char) : Prop where
  start_le_stop : span.start ≤ span.stop
  stop_le : span.stop ≤ byteLength source
  start_boundary : IsBoundary source span.start
  stop_boundary : IsBoundary source span.stop

theorem slice?_eq_some_iff {source chars : List Char} {start stop : ℕ} :
    slice? source start stop = some chars ↔
      ∃ before rest, source = before ++ (chars ++ rest) ∧ byteLength before = start ∧
        byteLength (before ++ chars) = stop := by
  unfold slice?
  constructor
  · intro slices
    split at slices
    · rename_i ordered
      split at slices
      · rename_i first rest split
        obtain ⟨before, rfl, -, rfl⟩ := splitBytes?_eq_some_iff.mp split
        obtain ⟨⟨front, last⟩, split', rfl⟩ := Option.map_eq_some_iff.mp slices
        obtain ⟨inner, rfl, rfl, bytes⟩ := splitBytes?_eq_some_iff.mp split'
        refine ⟨before, last, by simp, rfl, ?_⟩
        simp only [List.append_nil, List.reverse_reverse, byteLength_append]
        omega
      · cases slices
    · cases slices
  · rintro ⟨before, rest, rfl, rfl, rfl⟩
    have first : splitBytes? (byteLength before) [] (before ++ (chars ++ rest)) =
        some (before.reverse, chars ++ rest) :=
      splitBytes?_eq_some_iff.mpr ⟨before, rfl, by simp, rfl⟩
    have second : splitBytes? (byteLength chars) [] (chars ++ rest) = some (chars.reverse, rest) :=
      splitBytes?_eq_some_iff.mpr ⟨chars, rfl, by simp, rfl⟩
    simp [first, second]

namespace Span

variable {span : Span} {source chars : List Char}

private theorem Covers.within (covers : span.Covers source chars) : span.Within source := by
  obtain ⟨before, rest, rfl, start, stop⟩ := slice?_eq_some_iff.mp covers
  refine ⟨?_, ?_, ⟨before, _, rfl, start⟩, ⟨before ++ chars, rest, by simp, stop⟩⟩
  · rw [← start, ← stop, byteLength_append]
    exact Nat.le_add_right _ _
  · rw [← stop, ← List.append_assoc, byteLength_append _ rest]
    exact Nat.le_add_right _ _

private theorem Within.covers (within : span.Within source) :
    span.Covers source (slice source span.start span.stop).toList := by
  obtain ⟨before, behind, split, start⟩ := within.start_boundary
  obtain ⟨front, rest, split', stop⟩ := within.stop_boundary
  have ordered : byteLength before ≤ byteLength front := by
    rw [start, stop]
    exact within.start_le_stop
  obtain ⟨chars, rfl⟩ : ∃ chars, front = before ++ chars := by
    rcases List.append_eq_append_iff.mp (split.symm.trans split') with
      ⟨chars, rfl, -⟩ | ⟨chars, rfl, -⟩
    · exact ⟨chars, rfl⟩
    · rw [byteLength_append] at ordered
      have none : chars = [] := eq_nil_of_byteLength_eq_zero (by omega)
      exact ⟨[], by simp [none]⟩
  have slices : slice? source span.start span.stop = some chars :=
    slice?_eq_some_iff.mpr ⟨before, rest, by rw [split', List.append_assoc], start, stop⟩
  unfold Covers
  rw [slice, slices, Option.getD_some, String.toList_ofList]

end Span

/-! ### What errors point at -/

/-- A span is that of one clause of a name: behind the spaces and comments before a production of
the tree it starts at the section number, or at the name if there is none, and it ends with the
production. -/
def Tree.HasClause (source : List Char) (root : Tree) (name : String) (span : Span) : Prop :=
  ∃ clause ∈ root.children "production", ∃ blank label : Tree,
    clause.child? "production-name" = some label ∧ label.text source = name ∧
      span = ⟨((clause.child? "section-number").getD label).start, clause.stop⟩ ∧
      clause.content.head? = some blank ∧ blank.name = "s-ignorable" ∧
      blank.start = clause.start ∧ blank.stop = span.start

/-- What an error of the translation of a tree points at: the text that it quotes, a name in angle
brackets, a clause, or a tree that lacks something. -/
def CompileError.Points (source : List Char) (root : Tree) : CompileError → Prop
  | invalidNumber text span | invalidFormal text _ span | unsupportedExpression text span
  | notACharSet text span => span.Covers source text.toList
  | unknownSpecial name span => span.Covers source ('<' :: (name.toList ++ ['>']))
  | inconsistentFormals name span | duplicateClause name _ span => root.HasClause source name span
  | malformedTree _ span => span.Within source
  | invalidSyntax _ | run _ | undefinedReference _ _ => False

theorem CompileError.Points.within {source : List Char} {root : Tree} {error : CompileError}
    {span : Span} (points : error.Points source root)
    (clauses : ∀ name span, root.HasClause source name span → span.Within source)
    (located : error.span? = some span) : span.Within source := by
  cases error <;> cases located
  case malformedTree => exact points
  case inconsistentFormals | duplicateClause => exact clauses _ _ points
  case invalidSyntax => exact points.elim
  all_goals exact Span.Covers.within points

/-- A result, or an error that points into the tree. -/
def Locates {α : Type} (source : List Char) (root : Tree) : Except CompileError α → Prop
  | .ok _ => True
  | .error error => error.Points source root

namespace Locates

variable {source : List Char} {root : Tree} {α β : Type} {result : Except CompileError α}

private theorem bind {next : α → Except CompileError β} (first : Locates source root result)
    (later : ∀ value, result = .ok value → Locates source root (next value)) :
    Locates source root (result >>= next) := by
  cases result with
  | ok value => exact later value rfl
  | error error => exact first

private theorem map {convert : α → β} (locates : Locates source root result) :
    Locates source root (result.map convert) := by
  cases result with
  | ok value => trivial
  | error error => exact locates

private theorem mapM {convert : α → Except CompileError β} {items : List α}
    (each : ∀ item ∈ items, Locates source root (convert item)) :
    Locates source root (items.mapM convert) := by
  induction items with
  | nil => trivial
  | cons item items induction =>
      rw [List.forall_mem_cons] at each
      rw [List.mapM_cons]
      exact each.1.bind fun _ _ => (induction each.2).bind fun _ _ => trivial

private theorem foldlM {step : β → α → Except CompileError β} {items : List α} (start : β)
    (each : ∀ before, ∀ item ∈ items, Locates source root (step before item)) :
    Locates source root (items.foldlM step start) := by
  induction items generalizing start with
  | nil => trivial
  | cons item items induction =>
      rw [List.foldlM_cons]
      exact (each start item List.mem_cons_self).bind fun next _ =>
        induction next fun before item member => each before item (.tail _ member)

end Locates

namespace Bnf

namespace Dialect

/-! ### Sound trees -/

/-- A tree is that of a match in a text, and its nodes lie there one behind the other. -/
structure Sound (source : List Char) (tree : Tree) : Prop where
  parsed : Parsed source tree
  nodes : ∃ depth, ∀ entry ∈ tree.preorder depth, entry.2.WellFormed grammar source

variable {source : List Char} {root tree : Tree} {name : String}

private theorem mem_preorderAll_of_mem {depth : ℕ} {entry : ℕ × Tree} {trees : List Tree}
    (member : tree ∈ trees) (among : entry ∈ tree.preorder depth) :
    entry ∈ Tree.preorderAll depth trees := by
  induction trees with
  | nil => cases member
  | cons first trees induction =>
      rw [Tree.preorderAll, List.mem_append]
      rcases List.mem_cons.mp member with rfl | member
      · exact .inl among
      · exact .inr (induction member)

namespace Sound

private theorem wellFormed (sound : Sound source tree) : tree.WellFormed grammar source := by
  obtain ⟨depth, nodes⟩ := sound.nodes
  refine nodes (depth, tree) ?_
  cases tree
  exact List.mem_cons_self

private theorem part {part : Tree} (sound : Sound source tree) (member : part ∈ tree.content) :
    Sound source part := by
  obtain ⟨depth, nodes⟩ := sound.nodes
  refine ⟨sound.parsed.part member, depth + 1, fun entry among => nodes entry ?_⟩
  cases tree
  exact .tail _ (mem_preorderAll_of_mem member among)

private theorem of_child? {part : Tree} (sound : Sound source tree)
    (found : tree.child? name = some part) : Sound source part ∧ part.name = name :=
  ⟨sound.part (List.mem_of_find?_eq_some found), (sound.parsed.of_child? found).2⟩

private theorem of_children {part : Tree} (sound : Sound source tree)
    (member : part ∈ tree.children name) : Sound source part ∧ part.name = name :=
  ⟨sound.part (List.mem_of_mem_filter member), (sound.parsed.of_children member).2⟩

private theorem of_parametersOf {part : Tree} (sound : Sound source tree)
    (member : part ∈ parametersOf (tree.child? name)) : Sound source part := by
  cases found : tree.child? name with
  | none =>
      rw [found] at member
      cases member
  | some list =>
      rw [found] at member
      exact ((sound.of_child? found).1.of_children member).1

private theorem of_required {part : Tree} (sound : Sound source tree)
    (found : tree.required name = .ok part) : Sound source part ∧ part.name = name := by
  unfold Tree.required at found
  split at found
  · cases found
    exact sound.of_child? ‹_›
  · cases found

private theorem covers (sound : Sound source tree) :
    tree.span.Covers source (tree.text source).toList := by
  obtain ⟨chars, -, -, written, -⟩ : ∃ chars rest trees, slice? source tree.start tree.stop =
      some chars ∧ Yields source (.call tree.name) chars rest trees := by
    obtain ⟨chars, rest, yields⟩ := sound.parsed
    cases yields with
    | call member named written matched inside =>
        exact ⟨chars, rest, _, written, .call member named written matched inside⟩
  unfold Span.Covers
  rw [text_of_slice? written, String.toList_ofList]
  exact written

private theorem within (sound : Sound source tree) : tree.span.Within source := sound.covers.within

/-- Without what is ignored at its ends a tree still covers a range. -/
theorem within_trimmedSpan (sound : Sound source tree) : (trimmedSpan tree).Within source := by
  unfold trimmedSpan
  dsimp only
  generalize same : (tree.content.filter fun child =>
    decide (child.name ≠ "s-ignorable") && decide (child.name ≠ "s-space")) = significant
  have among : ∀ part ∈ significant, Sound source part := fun part member =>
    sound.part (List.mem_of_mem_filter (same ▸ member))
  have apart : significant.Pairwise fun left right => left.stop ≤ right.start :=
    same ▸ sound.wellFormed.content_apart.filter _
  split
  · rename_i first last head tail
    obtain ⟨rest, rfl⟩ := List.head?_eq_some_iff.mp head
    have before := (among first List.mem_cons_self).within
    have behind := (among last (List.mem_of_getLast? tail)).within
    refine ⟨?_, behind.stop_le, before.start_boundary, behind.stop_boundary⟩
    cases rest with
    | nil =>
        obtain rfl : first = last := by simpa using tail
        exact before.start_le_stop
    | cons second rest =>
        have later : last ∈ second :: rest := List.mem_of_getLast? (by simpa using tail)
        calc first.start ≤ first.stop := before.start_le_stop
          _ ≤ last.start := (List.pairwise_cons.mp apart).1 last later
          _ ≤ last.stop := behind.start_le_stop
  · exact sound.within

end Sound

private theorem Sound.locates_required (sound : Sound source tree) (name : String) :
    Locates source root (tree.required name) := by
  unfold Tree.required
  split
  · trivial
  · exact sound.within

/-! ### Arguments and counts -/

private theorem locates_decimalValue (sound : Sound source tree) :
    Locates source root (decimalValue source tree) := by
  unfold decimalValue
  dsimp only
  split
  · trivial
  · exact sound.covers

private theorem locates_addTerm {whole : Tree} (sum : Sum) (sign : Int) (outer : Sound source whole)
    (sound : Sound source tree) : Locates source root (addTerm source whole sum sign tree) := by
  unfold addTerm
  split
  · rename_i named found
    split
    · trivial
    · exact (sound.of_child? found).1.within
  · refine (sound.locates_required _).bind fun decimal found => ?_
    refine (locates_decimalValue (sound.of_required found).1).bind fun value _ => ?_
    split
    · trivial
    · exact outer.covers

private theorem locates_gather {whole : Tree} {parts : List Tree} (sum : Sum) (sign : Int)
    (outer : Sound source whole) (each : ∀ part ∈ parts, Sound source part) :
    Locates source root (gather source whole sum sign parts) := by
  induction parts generalizing sum sign with
  | nil => trivial
  | cons part rest induction =>
      rw [List.forall_mem_cons] at each
      rw [gather]
      split
      · exact induction _ _ each.2
      · split
        · have term : Locates source root (addTerm source whole sum sign part) :=
            locates_addTerm sum sign outer each.1
          split
          · exact induction _ _ each.2
          · rename_i fails
            rwa [fails] at term
        · exact induction _ _ each.2

private theorem locates_sumOf (sound : Sound source tree) :
    Locates source root (sumOf source tree) :=
  locates_gather _ _ sound fun _ member => sound.part member

private theorem locates_literalOf (sound : Sound source tree) :
    Locates source root (literalOf source tree) := by
  unfold literalOf
  split
  · rename_i part found
    split
    · trivial
    · exact (sound.of_child? found).1.within
  · split
    · rename_i part found
      split
      · trivial
      · exact (sound.of_child? found).1.within
    · trivial

private theorem locates_argumentOf (sound : Sound source tree) :
    Locates source root (argumentOf source tree) := by
  unfold argumentOf
  refine (locates_literalOf sound).bind fun literal _ => ?_
  split
  · trivial
  · split
    · rename_i flow found
      have inside := (sound.of_child? found).1
      refine (inside.locates_required _).bind fun named _ => ?_
      split
      · trivial
      · exact inside.covers
    · refine (sound.locates_required _).bind fun part found => ?_
      have inside := (sound.of_required found).1
      refine (locates_sumOf inside).bind fun sum _ => ?_
      split
      · trivial
      · exact inside.covers

private theorem locates_boundOf (sound : Sound source tree) :
    Locates source root (boundOf source tree) := by
  unfold boundOf
  refine (locates_sumOf sound).bind fun sum _ => ?_
  split
  · split
    · trivial
    · exact sound.covers
  · split
    · trivial
    · exact sound.covers

/-! ### Bodies -/

private theorem locates_hexOf (sound : Sound source tree) :
    Locates source root (hexOf source tree) := by
  unfold hexOf
  dsimp only
  split
  · split
    · trivial
    · exact sound.covers
  · exact sound.covers

private theorem locates_rangeBoundOf (sound : Sound source tree) :
    Locates source root (rangeBoundOf source tree) := by
  unfold rangeBoundOf
  split
  · rename_i hex found
    exact locates_hexOf (sound.of_child? found).1
  · refine (sound.locates_required _).bind fun quoted found => ?_
    split
    · trivial
    · exact (sound.of_required found).1.within

private theorem locates_rangeOf (sound : Sound source tree) :
    Locates source root (rangeOf source tree) := by
  unfold rangeOf
  split
  · rename_i first last rest bounds
    have inside : ∀ bound ∈ first :: last :: rest, Sound source bound := fun bound member =>
      (sound.of_children (bounds ▸ member)).1
    exact (locates_rangeBoundOf (inside first (by simp))).bind fun _ _ =>
      (locates_rangeBoundOf (inside last (by simp))).bind fun _ _ => trivial
  · exact sound.within

private theorem locates_differenceOf {operands : List (Except CompileError Node)}
    (sound : Sound source tree) (each : ∀ operand ∈ operands, Locates source root operand) :
    Locates source root (differenceOf source tree operands) := by
  unfold differenceOf
  split
  · exact sound.within
  · exact each _ List.mem_cons_self
  · rw [List.forall_mem_cons] at each
    split
    · trivial
    · exact (Locates.mapM fun operand among => (each.2 operand among).map).bind fun _ _ =>
        each.1.bind fun _ _ => trivial

/-- The part that an expression is built on, which has to be there. -/
theorem Sound.locates_getD (sound : Sound source tree) {expected : String}
    {operand : Option (Except CompileError Node)}
    (each : ∀ inner ∈ operand, Locates source root inner) :
    Locates source root (operand.getD (.error (tree.malformed expected))) := by
  cases operand with
  | none => exact sound.within
  | some inner => exact each inner rfl

private theorem locates_quantifiedOf {atom : Option (Except CompileError Node)}
    (sound : Sound source tree) (each : ∀ operand ∈ atom, Locates source root operand) :
    Locates source root (quantifiedOf source tree atom) := by
  unfold quantifiedOf
  refine (sound.locates_getD each).bind fun node _ => ?_
  split
  · trivial
  · rename_i quantifier found
    have inside := (sound.of_child? found).1
    split
    · trivial
    · trivial
    · trivial
    · exact (inside.locates_required _).bind fun sum found =>
        (locates_boundOf (inside.of_required found).1).bind fun _ _ => trivial

/-- What a lookbehind cannot ask for is quoted without the spaces and comments around it. -/
theorem locates_lookaroundOf {operand : Option (Except CompileError Node)}
    (sound : Sound source tree) (each : ∀ inner ∈ operand, Locates source root inner) :
    Locates source root (lookaroundOf source tree operand) := by
  unfold lookaroundOf
  have inside : Locates source root (operand.getD (.error (tree.malformed "alternation"))) :=
    sound.locates_getD each
  refine (sound.locates_required _).bind fun body found => ?_
  dsimp only
  split
  · split
    · split
      · trivial
      · exact inside.bind fun _ _ => trivial
    · exact (sound.of_required found).1.within_trimmedSpan.covers
  · exact inside.bind fun _ _ => trivial

/-- A name in angle brackets is quoted with its brackets. -/
theorem locates_specialOf (sound : Sound source tree) (kind : tree.name = "special") :
    Locates source root (specialOf source tree) := by
  unfold specialOf
  dsimp only
  split
  · trivial
  · trivial
  · trivial
  · obtain ⟨chars, _, written, -, yields⟩ := sound.parsed.yields kind rfl
    obtain ⟨name, _, _, rfl, -⟩ := yields.between
    have content : quotedContent (tree.text source).toList = name := by
      rw [text_of_slice? written, String.toList_ofList]
      simp [quotedContent]
    rw [content]
    change slice? source tree.start tree.stop =
      some ('<' :: ((String.ofList name).toList ++ ['>']))
    simpa using written

private theorem locates_referenceOf (sound : Sound source tree) :
    Locates source root (referenceOf source tree) := by
  unfold referenceOf
  refine (sound.locates_required _).bind fun _ _ => ?_
  refine (Locates.mapM fun parameter member => ?_).bind fun _ _ => trivial
  exact locates_argumentOf (sound.of_parametersOf member)

/-- The errors of a tree point into it if those of its parts do. -/
theorem locates_bodyParts {find : Tree → Except CompileError Node} (sound : Sound source tree)
    (each : ∀ part ∈ tree.content, Locates source root (find part)) :
    Locates source root
      (bodyParts source tree (tree.content.map fun part => (part, find part))) := by
  have parts : ∀ name, ∀ result ∈ (tree.content.filter fun part => part.name = name).map find,
      Locates source root result := by
    intro name result among
    obtain ⟨part, member, rfl⟩ := List.mem_map.mp among
    exact each part (List.mem_of_mem_filter member)
  have part : ∀ name, ∀ result ∈ (tree.content.find? fun part => part.name = name).map find,
      Locates source root result := by
    intro name result found
    obtain ⟨part, first, rfl⟩ := Option.map_eq_some_iff.mp found
    exact each part (List.mem_of_find?_eq_some first)
  unfold bodyParts
  simp only [partsOf_map, part?_map]
  split
  · exact (Locates.mapM (parts _)).bind fun _ _ => trivial
  · exact (Locates.mapM (parts _)).bind fun _ _ => trivial
  · exact locates_differenceOf sound (parts _)
  · exact locates_quantifiedOf sound (part _)
  · split
    · rename_i first rest same
      have among : first ∈ tree.content.map fun part => (part, find part) := by
        rw [same]
        exact List.mem_cons_self
      obtain ⟨part, member, rfl⟩ := List.mem_map.mp among
      exact each part member
    · exact sound.within
  · exact sound.locates_getD (part _)
  · exact locates_lookaroundOf sound (part _)
  · exact locates_specialOf sound ‹_›
  · exact (locates_rangeOf sound).map
  · exact (locates_hexOf sound).map
  · trivial
  · trivial
  · exact locates_referenceOf sound
  · exact sound.within

private theorem locates_bodyOf (sound : Sound source tree) :
    Locates source root (bodyOf source tree) := by
  induction tree using Tree.induction with
  | step tree inside =>
      rw [bodyOf_eq]
      exact locates_bodyParts sound fun part member => inside part member (sound.part member)

/-! ### Clauses -/

private theorem locates_declared (sound : Sound source tree) :
    Locates source root (Head.declared source tree) := by
  unfold Head.declared
  refine (locates_literalOf sound).bind fun literal _ => ?_
  split
  · trivial
  · split
    · exact sound.covers
    · rename_i part found
      refine (locates_sumOf (sound.of_child? found).1).bind fun sum _ => ?_
      split
      · trivial
      · split
        · trivial
        · exact sound.covers

private theorem locates_add (head : Head) (sound : Sound source tree) :
    Locates source root (head.add source tree) := by
  unfold Head.add
  refine (locates_declared sound).bind fun declared _ => ?_
  dsimp only
  split
  · exact sound.covers
  · split
    · trivial
    · split
      · trivial
      · exact sound.covers

private theorem locates_sectionNumber (sound : Sound source tree) :
    Locates source root (sectionNumber source tree) := by
  unfold sectionNumber
  refine (sound.locates_required _).bind fun decimal found => ?_
  dsimp only
  split
  · trivial
  · exact (sound.of_required found).1.covers

private theorem locates_clause (sound : Sound source tree) :
    Locates source root (Clause.ofTree source tree) := by
  rw [Clause.ofTree_eq]
  refine (sound.locates_required _).bind fun name _ => ?_
  refine Locates.bind (?_ : Locates source root (Clause.numberOf source _)) fun number _ => ?_
  · cases found : tree.child? "section-number" with
    | none => trivial
    | some label => exact (locates_sectionNumber (sound.of_child? found).1).map
  refine (Locates.foldlM _ fun head parameter member => ?_).bind fun head _ => ?_
  · exact locates_add head (sound.of_parametersOf member)
  · exact (sound.locates_required _).bind fun _ _ => trivial

/-! ### Places of clauses -/

section Places

variable {depth : ℕ∞} {production : String} {node child : Node} {nodes : List Node}
  {parameters : Parameters} {first last : Cursor} {trees : List Tree}

private theorem exists_tree_of_call
    (derives : Derives grammar depth production (.node (.call name)) parameters first
      (.matched trees last)) :
    ∃ tree, trees = [tree] ∧ tree.name = name ∧ tree.start = first.offset ∧
      tree.stop = last.offset := by
  generalize result : Outcome.matched trees last = outcome at derives
  cases derives <;> try cases result
  obtain ⟨content, -, rfl⟩ := Outcome.enclose_eq_matched_iff.mp result.symm
  exact ⟨_, rfl, rfl, rfl, rfl⟩

private theorem exists_middle_of_sequence
    (derives : Derives grammar depth production (.node (.sequence (node :: nodes))) parameters first
      (.matched trees last)) :
    ∃ before behind middle, trees = before ++ behind ∧
      Derives grammar depth production (.node node) parameters first (.matched before middle) ∧
      Derives grammar depth production (.node (.sequence nodes)) parameters middle
        (.matched behind last) := by
  generalize result : Outcome.matched trees last = outcome at derives
  cases derives with
  | sequenceCons head tail =>
      obtain ⟨behind, rfl, rfl⟩ := Outcome.prepend_eq_matched_iff.mp result.symm
      exact ⟨_, behind, _, rfl, head, tail⟩
  | sequenceStop _ stops =>
      subst result
      cases stops

private theorem derives_of_optional
    (derives : Derives grammar depth production (.node (.optional child)) parameters first
      (.matched trees last)) :
    Derives grammar depth production (.node child) parameters first (.matched trees last) ∨
      trees = [] ∧ last = first := by
  generalize result : Outcome.matched trees last = outcome at derives ⊢
  cases derives with
  | bounded atLeast atMost repeats =>
      cases atLeast
      cases atMost
      cases repeats with
      | exhausted _ _ =>
          obtain ⟨-, none, same⟩ := Outcome.check_eq_matched_iff.mp result.symm
          exact .inr ⟨none, same⟩
      | again _ inside _ more =>
          obtain ⟨behind, ends, rfl⟩ := Outcome.prepend_eq_matched_iff.mp result.symm
          cases more with
          | full =>
              obtain ⟨-, rfl, rfl⟩ := Outcome.check_eq_matched_iff.mp ends
              rw [← result, List.append_nil]
              exact .inl inside
          | exhausted unfilled _ => exact absurd rfl unfilled
          | again unfilled _ _ _ => exact absurd rfl unfilled
          | repetitionFailed _ _ => cases ends
      | repetitionFailed _ _ => cases result
  | minimumUnbound _ | maximumUnbound _ _ => cases result

private theorem find?_eq_none_of_forall {label : String} {trees : List Tree}
    (others : ∀ tree ∈ trees, tree.name ≠ label) :
    (trees.find? fun tree => tree.name = label) = none :=
  List.find?_eq_none.mpr fun tree member => by simpa using others tree member

/-- A clause starts with spaces and comments, up to its section number or its name. -/
theorem Sound.exists_blank {label : Tree} (sound : Sound source tree)
    (kind : tree.name = "production") (found : tree.child? "production-name" = some label) :
    ∃ blank, tree.content.head? = some blank ∧ blank.name = "s-ignorable" ∧
      blank.start = tree.start ∧
      blank.stop = ((tree.child? "section-number").getD label).start := by
  obtain ⟨production, get, -, -, first, last, -, starts, -, derives⟩ := sound.wellFormed.production
  rw [kind] at get derives
  cases get.symm.trans (get?_of_mem (by simp [rules]; rfl))
  obtain ⟨_, _, _, content, gap, row⟩ := exists_middle_of_sequence derives
  obtain ⟨blank, rfl, blankNamed, blankStart, blankStop⟩ := exists_tree_of_call gap
  obtain ⟨_, _, _, rfl, digits, named⟩ := exists_middle_of_sequence row
  obtain ⟨_, _, _, rfl, name, rest⟩ := exists_middle_of_sequence named
  obtain ⟨other, rfl, otherNamed, otherStart, -⟩ := exists_tree_of_call name
  refine ⟨blank, by simp [content], blankNamed, blankStart.trans starts, ?_⟩
  rcases derives_of_optional digits with once | ⟨rfl, rfl⟩
  · obtain ⟨number, rfl, numberNamed, numberStart, -⟩ := exists_tree_of_call once
    have numbered : tree.child? "section-number" = some number := by
      simp [Tree.child?, content, blankNamed, numberNamed]
    rw [numbered, Option.getD_some, numberStart, blankStop]
  · have labelled : tree.child? "production-name" = some other := by
      simp [Tree.child?, content, blankNamed, otherNamed]
    obtain rfl := Option.some.inj (labelled.symm.trans found)
    have unnumbered : tree.child? "section-number" = none := by
      refine find?_eq_none_of_forall ?_
      rw [content]
      simp only [List.singleton_append, List.nil_append, List.forall_mem_cons, blankNamed,
        otherNamed]
      refine ⟨by decide, by decide, fun tree member same => ?_⟩
      have mentioned := rest.mem_references tree member
      rw [same] at mentioned
      revert mentioned
      decide
    rw [unnumbered, Option.getD_none, otherStart, blankStop]

end Places

/-! ### Productions -/

private theorem exists_of_clause {clause : Clause}
    (found : Clause.ofTree source tree = .ok clause) :
    ∃ label, tree.child? "production-name" = some label ∧ label.text source = clause.name ∧
      tree.child? "alternation" = some clause.body ∧
      clause.span = ⟨((tree.child? "section-number").getD label).start, tree.stop⟩ := by
  have named : ∀ {name part}, tree.required name = .ok part → tree.child? name = some part := by
    intro name part required
    unfold Tree.required at required
    split at required
    · cases required
      assumption
    · cases required
  rw [Clause.ofTree_eq] at found
  obtain ⟨label, name, found⟩ := bind_eq_ok_iff.mp found
  obtain ⟨number, -, found⟩ := bind_eq_ok_iff.mp found
  obtain ⟨head, -, found⟩ := bind_eq_ok_iff.mp found
  obtain ⟨body, alternation, found⟩ := bind_eq_ok_iff.mp found
  cases found
  exact ⟨label, named name, rfl, named alternation, rfl⟩

/-- A clause that the tree of a text has, with a body from there. -/
structure ClauseOf (source : List Char) (root : Tree) (clause : Clause) : Prop where
  place : root.HasClause source clause.name clause.span
  body : Sound source clause.body

private theorem Sound.clauseOf {clause : Clause} (sound : Sound source root)
    (member : tree ∈ root.children "production") (found : Clause.ofTree source tree = .ok clause) :
    ClauseOf source root clause := by
  obtain ⟨inside, kind⟩ := sound.of_children member
  obtain ⟨label, name, named, alternation, span⟩ := exists_of_clause found
  obtain ⟨blank, first, blankNamed, starts, stops⟩ := inside.exists_blank kind name
  refine ⟨⟨tree, member, blank, label, name, named, span, first, blankNamed, starts, ?_⟩,
    (inside.of_child? alternation).1⟩
  rw [span]
  exact stops

/-- The span of a clause lies in the text. -/
theorem Sound.within_of_hasClause {span : Span} (sound : Sound source root)
    (clause : root.HasClause source name span) : span.Within source := by
  obtain ⟨tree, member, blank, label, -, -, same, first, -, -, stops⟩ := clause
  have inside := (sound.of_children member).1
  have among : blank ∈ tree.content := List.mem_of_head? first
  have gap := (inside.part among).within
  have whole := inside.within
  have last : span.stop = tree.stop := by rw [same]
  refine ⟨?_, ?_, ?_, ?_⟩
  · rw [last, ← stops]
    exact (inside.wellFormed.content_inside blank among).2
  · rw [last]
    exact whole.stop_le
  · rw [← stops]
    exact gap.stop_boundary
  · rw [last]
    exact whole.stop_boundary

section Productions

variable {clauses : List Clause} (all : ∀ clause ∈ clauses, ClauseOf source root clause)

include all

private theorem locates_clausesBody : Locates source root (clausesBody source clauses) := by
  unfold clausesBody
  refine (Locates.mapM fun clause member => (locates_bodyOf (all clause member).body).map).bind
    fun arms _ => ?_
  split <;> trivial

private theorem points_of_inconsistent? {formals : List Formal} {error : CompileError}
    (found : inconsistent? formals clauses = some error) : error.Points source root := by
  obtain ⟨clause, first, rfl⟩ := Option.map_eq_some_iff.mp found
  exact (all clause (List.mem_of_find?_eq_some first)).place

private theorem points_of_duplicate? {earlier : List Parameters} {error : CompileError}
    (found : duplicate? earlier clauses = some error) : error.Points source root := by
  induction clauses generalizing earlier with
  | nil => cases found
  | cons clause rest induction =>
      rw [List.forall_mem_cons] at all
      rw [duplicate?] at found
      split at found
      · cases found
        exact all.1.place
      · exact induction all.2 found

private theorem locates_productionOf (some : clauses ≠ []) :
    Locates source root (productionOf source clauses) := by
  unfold productionOf
  split
  · exact absurd rfl some
  · split
    · rename_i found
      exact points_of_inconsistent? (fun clause member => all clause (.tail _ member)) found
    · split
      · rename_i found
        exact points_of_duplicate? all found
      · exact (locates_clausesBody all).bind fun _ _ => trivial

end Productions

/-- Every error of the translation of a tree points into it. -/
theorem locates_grammarOf (sound : Sound source root) :
    Locates source root (grammarOf source root) := by
  unfold grammarOf
  refine (Locates.mapM fun tree member => locates_clause (sound.of_children member).1).bind
    fun clauses found => ?_
  have all : ∀ clause ∈ clauses, ClauseOf source root clause :=
    forall_of_forall₂ (mapM_eq_ok_iff.mp found) fun tree member clause => sound.clauseOf member
  refine (Locates.mapM fun group member => ?_).bind fun _ _ => trivial
  obtain ⟨some, among, -⟩ := mem_groups member
  exact (locates_productionOf (fun clause member => all clause (among clause member)) some).map

theorem sound_of_treeOf (reads : treeOf grammar source = .ok root) : Sound source root := by
  have delivers := delivers_treeOf grammar source
  rw [reads] at delivers
  have parsed := parsed_of_parseAll rfl delivers
  refine ⟨parsed (0, root) ?_, 0, (Setting.parseAll_wellFormed delivers).2⟩
  cases root
  exact List.mem_cons_self

end Dialect

end Bnf

end ParametricGrammar
