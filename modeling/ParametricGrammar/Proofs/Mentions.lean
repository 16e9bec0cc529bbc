import Mathlib.Data.List.Lex
import Mathlib.Order.Bounds.Defs
import ParametricGrammar.Proofs.References
/-!
# Mentions

A place in an expression tells, level by level, which child to enter. In lexicographic order the
places are met as they are read, and an expression refers to names in the order of the places that
mention them. So the undefined references of a grammar are told by the places of its bodies: which
they are, and that they come by production and then by first mention, each once.
-/

namespace ParametricGrammar

namespace Node

/-! ### Places -/

/-- The expressions that an expression is put together from, in order. -/
def children : Node → List Node
  | .empty | .startOfLine | .endOfInput | .literal _ | .chars _ | .reference _ _ => []
  | .sequence children | .first children => children
  | .repeated child _ _ | .lookahead child _ | .lookbehind child | .detectIndentation _ child =>
      [child]
  | .cases arms => arms.map Prod.snd

/-- The name that an expression refers to by itself, not through its children. -/
def own : Node → List String
  | .reference name _ => [name]
  | _ => []

/-- At a place in an expression there is a reference to a name. -/
inductive MentionsAt (name : String) : Node → List ℕ → Prop
  | here (arguments : List Binding) : MentionsAt name (.reference name arguments) []
  | inside {node child : Node} {index : ℕ} {place : List ℕ}
      (child_at : node.children[index]? = some child) (within : MentionsAt name child place) :
      MentionsAt name node (index :: place)

variable {node child : Node} {name : String}

private theorem mentionsAt_nil_iff : node.MentionsAt name [] ↔ name ∈ node.own := by
  constructor
  · rintro ⟨⟩
    exact List.mem_singleton_self _
  · intro member
    cases node <;> simp only [own, List.mem_singleton, List.not_mem_nil] at member
    subst member
    exact .here _

private theorem mentionsAt_cons_iff {index : ℕ} {place : List ℕ} :
    node.MentionsAt name (index :: place) ↔
      ∃ child, node.children[index]? = some child ∧ child.MentionsAt name place := by
  constructor
  · rintro ⟨⟩
    exact ⟨_, ‹_›, ‹_›⟩
  · rintro ⟨child, child_at, within⟩
    exact .inside child_at within

private theorem sizeOf_lt_of_mem_children (member : child ∈ node.children) :
    sizeOf child < sizeOf node := by
  cases node with
  | empty | startOfLine | endOfInput | literal | chars | reference => cases member
  | sequence children | first children =>
      have smaller : sizeOf child < sizeOf children := List.sizeOf_lt_of_mem member
      simp only [sequence.sizeOf_spec, first.sizeOf_spec]
      omega
  | repeated | lookahead | lookbehind | detectIndentation =>
      obtain rfl := List.mem_singleton.mp member
      simp only [repeated.sizeOf_spec, lookahead.sizeOf_spec, lookbehind.sizeOf_spec,
        detectIndentation.sizeOf_spec]
      omega
  | cases arms =>
      obtain ⟨⟨pattern, body⟩, among, rfl⟩ := List.mem_map.mp member
      have smaller := List.sizeOf_lt_of_mem among
      simp only [cases.sizeOf_spec, Prod.mk.sizeOf_spec] at smaller ⊢
      omega

/-- What holds of an expression as soon as it holds of its children holds of every expression. -/
theorem children_induction {motive : Node → Prop}
    (step : ∀ node, (∀ child ∈ node.children, motive child) → motive node) (node : Node) :
    motive node :=
  step node fun child _ => children_induction step child
termination_by sizeOf node
decreasing_by exact sizeOf_lt_of_mem_children ‹_›

private theorem references_eq (node : Node) :
    node.references = node.own ++ node.children.flatMap references := by
  cases node with
  | sequence children | first children => exact referencesOfAll_eq children
  | cases arms =>
      rw [references, children, List.flatMap_map]
      exact referencesOfArms_eq arms
  | _ => simp [references, own, children]

/-! ### Mentions in order -/

/-- A list of places, each with a name, holds the mentions in an expression in order: as they are
read, and in the order of their places. -/
structure Lists (node : Node) (mentions : List (List ℕ × String)) : Prop where
  names : mentions.map Prod.snd = node.references
  ordered : mentions.Pairwise fun left right => left.1 < right.1
  mem_iff : ∀ place name, (place, name) ∈ mentions ↔ node.MentionsAt name place

/-- The mention of an expression itself, and then those in its children, each below its child. -/
def gathered (mentions : Node → List (List ℕ × String)) (node : Node) : List (List ℕ × String) :=
  node.own.map ([], ·) ++ node.children.zipIdx.flatMap fun child =>
    (mentions child.1).map fun mention => (child.2 :: mention.1, mention.2)

section Children

variable {mentions : Node → List (List ℕ × String)}
  (each : ∀ child ∈ node.children, child.Lists (mentions child))
include each

private theorem map_snd_gathered : (gathered mentions node).map Prod.snd = node.references := by
  have names : ∀ child ∈ node.children, (mentions child).map Prod.snd = child.references :=
    fun child member => (each child member).names
  calc
    _ = node.own ++ node.children.zipIdx.flatMap fun child => (mentions child.1).map Prod.snd := by
      simp [gathered, List.map_flatMap, Function.comp_def]
    _ = node.own ++ (node.children.zipIdx.map Prod.fst).flatMap fun child =>
        (mentions child).map Prod.snd := by rw [List.flatMap_map]
    _ = node.own ++ node.children.flatMap references := by
      rw [List.zipIdx_map_fst, List.flatMap_congr names]
    _ = node.references := (references_eq node).symm

/-- The own mention is at the least place, and the children are in the order of their indices. -/
theorem pairwise_gathered :
    (gathered mentions node).Pairwise fun left right => left.1 < right.1 := by
  have indexed : node.children.zipIdx.Pairwise fun left right => left.2 < right.2 := by
    rw [← List.pairwise_map, List.zipIdx_map_snd]
    exact List.pairwise_lt_range' 1
  refine List.pairwise_append.mpr ⟨?_, List.pairwise_flatMap.mpr ⟨?_, indexed.imp ?_⟩, ?_⟩
  · cases node <;> simp [own]
  · rintro ⟨child, index⟩ member
    have among : child ∈ node.children :=
      List.mem_of_getElem? (List.mk_mem_zipIdx_iff_getElem?.mp member)
    rw [List.pairwise_map]
    exact (each child among).ordered.imp fun before =>
      List.cons_lt_cons_iff.mpr (.inr ⟨rfl, before⟩)
  · rintro left right before _ here _ there
    obtain ⟨_, -, rfl⟩ := List.mem_map.mp here
    obtain ⟨_, -, rfl⟩ := List.mem_map.mp there
    exact List.cons_lt_cons_iff.mpr (.inl before)
  · rintro _ here _ there
    obtain ⟨_, -, rfl⟩ := List.mem_map.mp here
    obtain ⟨_, -, below⟩ := List.mem_flatMap.mp there
    obtain ⟨_, -, rfl⟩ := List.mem_map.mp below
    exact List.nil_lt_cons _ _

private theorem mem_gathered_iff (place : List ℕ) (name : String) :
    (place, name) ∈ gathered mentions node ↔ node.MentionsAt name place := by
  rcases place with _ | ⟨index, place⟩
  · simp [gathered, mentionsAt_nil_iff]
  · rw [mentionsAt_cons_iff]
    simp only [gathered, List.mem_append, List.mem_map, List.mem_flatMap, Prod.exists,
      Prod.mk.injEq, List.mk_mem_zipIdx_iff_getElem?, reduceCtorEq, false_and, and_false,
      exists_false, false_or, List.cons.injEq]
    constructor
    · rintro ⟨child, _, child_at, _, _, member, ⟨rfl, rfl⟩, rfl⟩
      have lists := each child (List.mem_of_getElem? child_at)
      exact ⟨child, child_at, (lists.mem_iff _ _).mp member⟩
    · rintro ⟨child, child_at, within⟩
      have lists := each child (List.mem_of_getElem? child_at)
      exact ⟨child, index, child_at, place, name, (lists.mem_iff _ _).mpr within, ⟨rfl, rfl⟩, rfl⟩

end Children

/-- The mentions in an expression can be listed. -/
theorem exists_lists (node : Node) : ∃ mentions, node.Lists mentions := by
  induction node using children_induction with
  | step node induction =>
      choose! mentions each using induction
      exact ⟨gathered mentions node, map_snd_gathered each, pairwise_gathered each,
        mem_gathered_iff each⟩

private theorem mem_references_iff :
    name ∈ node.references ↔ ∃ place, node.MentionsAt name place := by
  obtain ⟨mentions, lists⟩ := node.exists_lists
  simp [← lists.names, ← lists.mem_iff]

end Node

/-! ### First mentions -/

/-- The first place of a name comes before all places of another. -/
def FirstBefore (places : String → Set (List ℕ)) (left right : String) : Prop :=
  ∃ first, IsLeast (places left) first ∧ ∀ place ∈ places right, first < place

/-- The places that a list gives to a name. -/
def placesIn (listed : List (List ℕ × String)) (name : String) : Set (List ℕ) :=
  {place | (place, name) ∈ listed}

variable {listed : List (List ℕ × String)}

private theorem placesIn_cons {place : List ℕ} {name other : String} (differs : other ≠ name) :
    placesIn ((place, name) :: listed) other = placesIn listed other := by
  ext place
  simp [placesIn, differs]

/-- Names that are kept once each come in the order of their first places. -/
theorem pairwise_eraseDups (ordered : listed.Pairwise fun left right => left.1 < right.1)
    (keep : String → Bool) :
    ((listed.map Prod.snd).filter keep).eraseDups.Pairwise (FirstBefore (placesIn listed)) := by
  induction listed generalizing keep with
  | nil => exact .nil
  | cons entry listed induction =>
      obtain ⟨first, name⟩ := entry
      obtain ⟨before, ordered⟩ := List.pairwise_cons.mp ordered
      -- Where the name of the entry is not kept, the places are those in the rest of the list.
      have behind {keep : String → Bool} (drops : keep name = false) :
          ((listed.map Prod.snd).filter keep).eraseDups.Pairwise
            (FirstBefore (placesIn ((first, name) :: listed))) := by
        have differs : ∀ other ∈ ((listed.map Prod.snd).filter keep).eraseDups, other ≠ name := by
          rintro other member rfl
          simp [drops] at member
        refine (induction ordered keep).imp_of_mem fun {left right} isLeft isRight comes => ?_
        rwa [FirstBefore, placesIn_cons (differs left isLeft),
          placesIn_cons (differs right isRight)]
      rw [List.map_cons, List.filter_cons]
      split
      · rw [List.eraseDups_cons, List.filter_filter, List.pairwise_cons]
        refine ⟨fun other member => ⟨first, ⟨List.mem_cons_self, ?_⟩, ?_⟩, behind (by simp)⟩
        · rintro place (_ | ⟨_, later⟩)
          · exact le_rfl
          · exact (before _ later).le
        · have differs : other ≠ name := by
            rintro rfl
            simp at member
          rw [placesIn_cons differs]
          exact fun place => before (place, other)
      · rename_i dropped
        exact behind (eq_false_of_ne_true dropped)

namespace Grammar

variable {grammar : Grammar} {caller name : String}

/-- A pair comes before another: its production is defined earlier, or the production is the same
and the first mention of its name in the body comes before that of the other name. -/
def Precedes (grammar : Grammar) (left right : String × String) : Prop :=
  grammar.names.idxOf left.1 < grammar.names.idxOf right.1 ∨
    left.1 = right.1 ∧ ∃ production, grammar.get? left.1 = some production ∧
      FirstBefore (fun name => {place | production.body.MentionsAt name place}) left.2 right.2

private theorem Precedes.ne {left right : String × String}
    (precedes : grammar.Precedes left right) :
    left ≠ right := by
  rintro rfl
  rcases precedes with earlier | ⟨-, production, -, first, least, before⟩
  · exact lt_irrefl _ earlier
  · exact lt_irrefl _ (before first least.1)

private theorem get?_eq_some_iff {production : Production} :
    grammar.get? name = some production ↔ (name, production) ∈ grammar.entries :=
  ⟨mem_entries_of_get?, lookup_eq_some_of_mem grammar.nodup⟩

private theorem contains_eq_false_iff : grammar.contains name = false ↔ name ∉ grammar.names := by
  rw [← get?_eq_none_iff, Option.eq_none_iff_forall_ne_some]
  simp [names, get?_eq_some_iff]

/-- The productions of a grammar stand in the order of the positions of their names. -/
theorem pairwise_entries (grammar : Grammar) : grammar.entries.Pairwise fun left right =>
    grammar.names.idxOf left.1 < grammar.names.idxOf right.1 := by
  have named : grammar.names.Pairwise fun left right =>
      grammar.names.idxOf left < grammar.names.idxOf right := by
    rw [List.pairwise_iff_getElem]
    intro i j _ _ before
    have nodup : grammar.names.Nodup := grammar.nodup
    rwa [nodup.idxOf_getElem, nodup.idxOf_getElem]
  rwa [names, List.pairwise_map] at named

private theorem pairwise_undefinedReferences (grammar : Grammar) :
    grammar.undefinedReferences.Pairwise grammar.Precedes := by
  refine List.pairwise_flatMap.mpr ⟨?_, grammar.pairwise_entries.imp ?_⟩
  · rintro ⟨caller, production⟩ member
    obtain ⟨mentions, lists⟩ := production.body.exists_lists
    have places : placesIn mentions = fun name => {place | production.body.MentionsAt name place} :=
      funext fun name => Set.ext fun place => lists.mem_iff place name
    rw [List.pairwise_map, ← lists.names]
    exact (pairwise_eraseDups lists.ordered _).imp fun before =>
      .inr ⟨rfl, production, get?_eq_some_iff.mpr member, places ▸ before⟩
  · rintro left right earlier _ isLeft _ isRight
    obtain ⟨_, -, rfl⟩ := List.mem_map.mp isLeft
    obtain ⟨_, -, rfl⟩ := List.mem_map.mp isRight
    exact .inl earlier

/-! ### One pass -/

/-- Lists a name that a production mentions, if it is undefined and the pair is not listed yet. -/
def enlist (grammar : Grammar) (caller : String) (listed : List (String × String))
    (name : String) : List (String × String) :=
  if grammar.contains name || listed.contains (caller, name) then listed
  else listed ++ [(caller, name)]

/-- The pairs that one pass over all bodies lists. -/
def enlisted (grammar : Grammar) : List (String × String) :=
  grammar.entries.foldl
    (fun listed entry => entry.2.body.references.foldl (grammar.enlist entry.1) listed) []

private theorem foldl_enlist (caller : String) (listed : List (String × String))
    (names : List String) :
    names.foldl (grammar.enlist caller) listed =
      listed ++ ((names.filter fun name =>
        !(grammar.contains name || listed.contains (caller, name))).eraseDups.map (caller, ·)) := by
  induction names generalizing listed with
  | nil => simp
  | cons name names induction =>
      rw [List.foldl_cons, enlist, List.filter_cons]
      by_cases passed : (grammar.contains name || listed.contains (caller, name)) = true
      · rw [if_pos passed, if_neg (by rw [passed]; simp), induction]
      · rw [if_neg passed, if_pos (by simpa using passed), induction, List.eraseDups_cons,
          List.filter_filter, List.map_cons, List.append_assoc, List.singleton_append]
        have others : (fun other => !(grammar.contains other ||
            (listed ++ [(caller, name)]).contains (caller, other))) = fun other =>
              !other == name && !(grammar.contains other || listed.contains (caller, other)) := by
          funext other
          by_cases same : other = name <;> simp [same]
        rw [others]

/-- One pass lists the undefined references: no pair of a production is listed before its turn. -/
theorem enlisted_eq (grammar : Grammar) : grammar.enlisted = grammar.undefinedReferences := by
  have general : ∀ (entries : List (String × Production)) (listed : List (String × String)),
      (entries.map Prod.fst).Nodup → (∀ pair ∈ listed, pair.1 ∉ entries.map Prod.fst) →
        entries.foldl (fun listed entry =>
            entry.2.body.references.foldl (grammar.enlist entry.1) listed) listed =
          listed ++ entries.flatMap fun entry =>
            (entry.2.body.references.filter fun name => !grammar.contains name).eraseDups.map
              (entry.1, ·) := by
    intro entries
    induction entries with
    | nil => simp
    | cons entry entries induction =>
        intro listed nodup earlier
        rw [List.map_cons, List.nodup_cons] at nodup
        have fresh : ∀ name, (entry.1, name) ∉ listed :=
          fun name member => earlier _ member List.mem_cons_self
        rw [List.foldl_cons, induction _ nodup.2, foldl_enlist, List.flatMap_cons,
          List.append_assoc]
        · simp [fresh]
        · intro pair member
          rw [foldl_enlist] at member
          rcases List.mem_append.mp member with old | new
          · exact fun later => earlier pair old (.tail _ later)
          · obtain ⟨_, -, rfl⟩ := List.mem_map.mp new
            exact nodup.1
  exact general grammar.entries [] grammar.nodup (by simp)

/-- The undefined references are told exactly. A pair is among them if and only if its first name
has a production whose body mentions the second at some place, and the second has none. No pair
comes twice, pairs come by the position of their production and then by the first mention in its
body, and they are what one pass over all bodies lists. -/
theorem undefinedReferences_exact (grammar : Grammar) :
    (∀ caller name, (caller, name) ∈ grammar.undefinedReferences ↔
      (∃ production, grammar.get? caller = some production ∧
        ∃ place, production.body.MentionsAt name place) ∧ name ∉ grammar.names) ∧
    grammar.undefinedReferences.Nodup ∧
    grammar.undefinedReferences.Pairwise grammar.Precedes ∧
    grammar.undefinedReferences = grammar.enlisted := by
  have ordered : grammar.undefinedReferences.Pairwise grammar.Precedes :=
    grammar.pairwise_undefinedReferences
  refine ⟨fun caller name => ?_, ordered.imp Precedes.ne, ordered, grammar.enlisted_eq.symm⟩
  simp only [mem_undefinedReferences_iff, get?_eq_some_iff, contains_eq_false_iff,
    Node.mem_references_iff, ← and_assoc, exists_and_right]

example : undefinedReferences (.ofList
    [ ("top", ⟨none, [], .sequence [.ahead (.call "b"), .first [.call "a", .call "b"]]⟩),
      ("end", ⟨none, [], .call "a"⟩) ]) = [("top", "b"), ("top", "a"), ("end", "a")] := by
  decide

end Grammar

end ParametricGrammar
