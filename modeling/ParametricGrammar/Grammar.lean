import ParametricGrammar.Node
/-!
# Grammars

A grammar lists named productions in definition order, each name once. Replacing a production keeps
its place; a new one is appended.
-/

namespace ParametricGrammar

/-- A production: optional section number, formals and body. -/
structure Production where
  number : Option UInt32 := none
  formals : List Formal := []
  body : Node
deriving DecidableEq

theorem lookup_eq_none_of_notMem {α β : Type} [DecidableEq α] {key : α} {pairs : List (α × β)}
    (fresh : key ∉ pairs.map Prod.fst) : pairs.lookup key = none :=
  List.lookup_eq_none_iff.mpr fun pair member =>
    bne_iff_ne.mpr fun same => fresh (List.mem_map.mpr ⟨pair, member, same.symm⟩)

namespace Grammar

/-- Replaces the production of a name in its place, or appends it. -/
def insertEntry (name : String) (production : Production) :
    List (String × Production) → List (String × Production)
  | [] => [(name, production)]
  | entry :: rest =>
      if entry.1 = name then (name, production) :: rest
      else entry :: insertEntry name production rest

theorem keys_insertEntry (name : String) (production : Production)
    (entries : List (String × Production)) :
    (insertEntry name production entries).map Prod.fst =
      if name ∈ entries.map Prod.fst then entries.map Prod.fst
      else entries.map Prod.fst ++ [name] := by
  induction entries with
  | nil => simp [insertEntry]
  | cons entry rest induction =>
      by_cases same : entry.1 = name
      · simp [insertEntry, same]
      · by_cases later : name ∈ rest.map Prod.fst <;>
          simp [insertEntry, same, Ne.symm same, induction, later]

theorem nodup_insertEntry {name : String} {production : Production}
    {entries : List (String × Production)} (nodup : (entries.map Prod.fst).Nodup) :
    ((insertEntry name production entries).map Prod.fst).Nodup := by
  rw [keys_insertEntry]
  split
  · exact nodup
  · rename_i fresh
    rw [List.nodup_append]
    refine ⟨nodup, by simp, ?_⟩
    intro left memLeft right memRight same
    simp only [List.mem_singleton] at memRight
    exact fresh (memRight ▸ same ▸ memLeft)

theorem insertEntry_of_notMem {name : String} {production : Production}
    {entries : List (String × Production)} (fresh : name ∉ entries.map Prod.fst) :
    insertEntry name production entries = entries ++ [(name, production)] := by
  induction entries with
  | nil => rfl
  | cons entry entries induction =>
      simp only [List.map_cons, List.mem_cons, not_or] at fresh
      simp [insertEntry, Ne.symm fresh.1, induction fresh.2]

theorem mem_insertEntry {name : String} {production : Production}
    {entries : List (String × Production)} {entry : String × Production}
    (member : entry ∈ insertEntry name production entries) :
    entry = (name, production) ∨ entry ∈ entries := by
  induction entries with
  | nil => exact .inl (List.mem_singleton.mp member)
  | cons first entries induction =>
      rw [insertEntry] at member
      split at member
      · exact (List.mem_cons.mp member).imp_right (.tail _)
      · rcases List.mem_cons.mp member with rfl | member
        · exact .inr List.mem_cons_self
        · exact (induction member).imp_right (.tail _)

theorem lookup_eq_some_of_mem {name : String} {production : Production}
    {entries : List (String × Production)} (nodup : (entries.map Prod.fst).Nodup)
    (member : (name, production) ∈ entries) : entries.lookup name = some production := by
  induction entries with
  | nil => cases member
  | cons entry entries induction =>
      rw [List.map_cons, List.nodup_cons] at nodup
      rcases List.mem_cons.mp member with rfl | later
      · simp
      · have other : name ≠ entry.1 := by
          rintro rfl
          exact nodup.1 (List.mem_map.mpr ⟨_, later, rfl⟩)
        rw [List.lookup_cons, beq_false_of_ne other]
        exact induction nodup.2 later

end Grammar

/-- Productions by name, in definition order. -/
structure Grammar where
  entries : List (String × Production)
  nodup : (entries.map Prod.fst).Nodup
deriving DecidableEq

namespace Grammar

/-- The grammar without productions. -/
def empty : Grammar := ⟨[], by simp⟩

/-- The number of productions. -/
def size (grammar : Grammar) : Nat := grammar.entries.length

/-- The names of the productions. -/
def names (grammar : Grammar) : List String := grammar.entries.map Prod.fst

/-- The production of a name. -/
def get? (grammar : Grammar) (name : String) : Option Production :=
  grammar.entries.lookup name

/-- Whether a name has a production. -/
def contains (grammar : Grammar) (name : String) : Bool :=
  (grammar.get? name).isSome

/-- Replaces the production of a name in its place, or appends it. -/
def insert (grammar : Grammar) (name : String) (production : Production) : Grammar :=
  ⟨insertEntry name production grammar.entries, nodup_insertEntry grammar.nodup⟩

/-- Collects named productions in order; a repeated name replaces the earlier production. -/
def ofList (entries : List (String × Production)) : Grammar :=
  entries.foldl (fun grammar entry => grammar.insert entry.1 entry.2) empty

/-- Productions with names of their own are collected as they are. -/
theorem entries_ofList {entries : List (String × Production)}
    (nodup : (entries.map Prod.fst).Nodup) : (ofList entries).entries = entries := by
  have general : ∀ (entries : List (String × Production)) (grammar : Grammar),
      ((grammar.entries ++ entries).map Prod.fst).Nodup →
        (entries.foldl (fun grammar entry => grammar.insert entry.1 entry.2) grammar).entries =
          grammar.entries ++ entries := by
    intro entries
    induction entries with
    | nil => simp
    | cons entry entries induction =>
        intro grammar distinct
        have fresh : entry.1 ∉ grammar.entries.map Prod.fst := by
          simp only [List.map_append, List.map_cons, List.nodup_append, List.mem_cons] at distinct
          exact fun member => distinct.2.2 _ member _ (.inl rfl) rfl
        have step : (grammar.insert entry.1 entry.2).entries = grammar.entries ++ [entry] :=
          insertEntry_of_notMem fresh
        rw [List.foldl_cons, induction _ (by simpa [step] using distinct), step]
        simp
  exact general entries empty nodup

/-- A grammar is collected from its productions. -/
theorem ofList_entries (grammar : Grammar) : ofList grammar.entries = grammar := by
  have same := entries_ofList grammar.nodup
  obtain ⟨entries, nodup⟩ := grammar
  generalize ofList entries = collected at same
  obtain ⟨others, _⟩ := collected
  obtain rfl : others = entries := same
  rfl

/-- The productions of a collected grammar are among those given. -/
theorem mem_ofList {entries : List (String × Production)} {entry : String × Production}
    (member : entry ∈ (ofList entries).entries) : entry ∈ entries := by
  have general : ∀ (entries : List (String × Production)) (grammar : Grammar),
      entry ∈ (entries.foldl (fun grammar entry => grammar.insert entry.1 entry.2)
        grammar).entries → entry ∈ grammar.entries ∨ entry ∈ entries := by
    intro entries
    induction entries with
    | nil => exact fun _ member => .inl member
    | cons first entries induction =>
        intro grammar member
        rcases induction _ member with member | member
        · rcases mem_insertEntry member with rfl | member
          · exact .inr List.mem_cons_self
          · exact .inl member
        · exact .inr (.tail _ member)
  rcases general entries empty member with none | among
  · cases none
  · exact among

/-- Inserts the productions of a patch in order. -/
def merge (grammar patch : Grammar) : Grammar :=
  patch.entries.foldl (fun grammar entry => grammar.insert entry.1 entry.2) grammar

/-- The productions of one grammar and then those of a patch are collected to the merged one. -/
theorem ofList_append (grammar patch : Grammar) :
    ofList (grammar.entries ++ patch.entries) = grammar.merge patch := by
  rw [ofList, List.foldl_append]
  exact congrArg (·.merge patch) (ofList_entries grammar)

/-- A patch with names of its own comes behind what it is merged into. -/
theorem entries_merge {grammar patch : Grammar}
    (disjoint : ∀ name ∈ grammar.names, name ∉ patch.names) :
    (grammar.merge patch).entries = grammar.entries ++ patch.entries := by
  rw [← ofList_append, entries_ofList]
  rw [List.map_append]
  exact List.nodup_append.mpr ⟨grammar.nodup, patch.nodup,
    fun name among _ among' same => disjoint name among (same ▸ among')⟩

/-- Pairs of a production and a name that its body mentions but the grammar does not define. -/
def undefinedReferences (grammar : Grammar) : List (String × String) :=
  grammar.entries.flatMap fun (caller, production) =>
    ((production.body.references.filter fun name => !grammar.contains name).eraseDups).map
      (caller, ·)

end Grammar

end ParametricGrammar
