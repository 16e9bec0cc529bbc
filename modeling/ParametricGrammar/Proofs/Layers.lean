import Mathlib.Data.List.Basic
import ParametricGrammar.Assembly
/-!
# Layers of grammars

A grammar is determined by its names in order and by what each name is looked up to. Both are easily
told for a patch that is laid over a grammar: new names come behind the old ones, and the patch is
looked up first. So laying patches over each other is lawful, up to the order of productions.
-/

namespace ParametricGrammar

namespace Grammar

variable {grammar left right : Grammar} {name : String}

/-- Grammars are equal if they have the same names in the same order and look them up alike. -/
theorem eq_of_get?_eq (names : left.names = right.names)
    (same : ∀ name, left.get? name = right.get? name) : left = right := by
  have listed (grammar : Grammar) : grammar.entries.map (fun entry => (entry.1, some entry.2)) =
      grammar.names.map fun name => (name, grammar.get? name) := by
    rw [Grammar.names, List.map_map]
    exact List.map_congr_left fun entry member =>
      congrArg (entry.1, ·) (lookup_eq_some_of_mem grammar.nodup member).symm
  have mapped : left.entries.map (fun entry => (entry.1, some entry.2)) =
      right.entries.map fun entry => (entry.1, some entry.2) := by
    rw [listed left, listed right, names]
    exact List.map_congr_left fun name _ => congrArg (name, ·) (same name)
  have entries : left.entries = right.entries := by
    refine List.map_injective_iff.mpr ?_ mapped
    rintro ⟨name, production⟩ ⟨other, production'⟩ equal
    simpa using equal
  cases left
  cases right
  congr

/-! ### Insertion -/

private theorem names_insert (grammar : Grammar) (name : String) (production : Production) :
    (grammar.insert name production).names =
      if name ∈ grammar.names then grammar.names else grammar.names ++ [name] :=
  keys_insertEntry name production grammar.entries

private theorem get?_insert (grammar : Grammar) (name : String) (production : Production)
    (other : String) :
    (grammar.insert name production).get? other =
      if other = name then some production else grammar.get? other := by
  simp only [get?, insert]
  induction grammar.entries with
  | nil =>
      rw [insertEntry, List.lookup_cons]
      by_cases same : other = name
      · simp [same]
      · simp [same, beq_false_of_ne same]
  | cons entry entries induction =>
      rw [insertEntry]
      split
      · rename_i here
        rw [List.lookup_cons, List.lookup_cons, here]
        by_cases same : other = name
        · simp [same]
        · simp [same, beq_false_of_ne same]
      · rename_i elsewhere
        rw [List.lookup_cons, List.lookup_cons, induction]
        by_cases same : other = name
        · subst same
          simp [beq_false_of_ne (Ne.symm elsewhere)]
        · simp [same]

/-! ### Merging -/

/-- Productions with names of their own are inserted behind the names of a grammar, apart from those
that replace a production. -/
theorem names_foldl_insert {entries : List (String × Production)}
    (nodup : (entries.map Prod.fst).Nodup) (grammar : Grammar) :
    (entries.foldl (fun grammar entry => grammar.insert entry.1 entry.2) grammar).names =
      grammar.names ++ (entries.map Prod.fst).filter (· ∉ grammar.names) := by
  induction entries generalizing grammar with
  | nil => simp
  | cons entry entries induction =>
      rw [List.map_cons, List.nodup_cons] at nodup
      rw [List.foldl_cons, induction nodup.2, names_insert, List.map_cons]
      by_cases known : entry.1 ∈ grammar.names
      · simp [known]
      · have later : (entries.map Prod.fst).filter (· ∉ grammar.names ++ [entry.1]) =
            (entries.map Prod.fst).filter (· ∉ grammar.names) := by
          refine List.filter_congr fun name member => ?_
          have other : name ≠ entry.1 := fun same => nodup.1 (same ▸ member)
          simp [other]
        rw [if_neg known, later, List.filter_cons_of_pos (by simpa using known),
          List.append_assoc, List.singleton_append]

/-- What is inserted last is looked up first. -/
theorem get?_foldl_insert {entries : List (String × Production)}
    (nodup : (entries.map Prod.fst).Nodup) (grammar : Grammar) (name : String) :
    (entries.foldl (fun grammar entry => grammar.insert entry.1 entry.2) grammar).get? name =
      (entries.lookup name).or (grammar.get? name) := by
  induction entries generalizing grammar with
  | nil => rfl
  | cons entry entries induction =>
      rw [List.map_cons, List.nodup_cons] at nodup
      rw [List.foldl_cons, induction nodup.2, get?_insert, List.lookup_cons]
      by_cases same : name = entry.1
      · subst same
        simp [lookup_eq_none_of_notMem nodup.1]
      · simp [same, beq_false_of_ne same]

private theorem names_merge (grammar patch : Grammar) :
    (grammar.merge patch).names =
      grammar.names ++ patch.names.filter (· ∉ grammar.names) :=
  names_foldl_insert patch.nodup grammar

private theorem get?_merge (grammar patch : Grammar) (name : String) :
    (grammar.merge patch).get? name = (patch.get? name).or (grammar.get? name) :=
  get?_foldl_insert patch.nodup grammar name

private theorem merge_assoc (first second third : Grammar) :
    (first.merge second).merge third = first.merge (second.merge third) := by
  refine eq_of_get?_eq ?_ fun name => ?_
  · simp only [names_merge, List.filter_append, List.filter_filter, List.append_assoc,
      List.mem_append, List.mem_filter]
    congr 2
    refine List.filter_congr fun name _ => ?_
    by_cases early : name ∈ first.names <;> simp [early]
  · simp only [get?_merge, Option.or_assoc]

private theorem empty_merge (grammar : Grammar) : empty.merge grammar = grammar :=
  ofList_entries grammar

private theorem merge_empty (grammar : Grammar) : grammar.merge empty = grammar := rfl

/-- A patch of productions that a grammar has already changes nothing. -/
theorem merge_self (grammar : Grammar) : grammar.merge grammar = grammar := by
  refine eq_of_get?_eq ?_ fun name => ?_
  · rw [names_merge, List.filter_eq_nil_iff.mpr (by simp), List.append_nil]
  · rw [get?_merge, Option.or_self]

private theorem foldl_merge (grammar : Grammar) (patches : List Grammar) :
    patches.foldl merge grammar = grammar.merge (patches.foldl merge empty) := by
  induction patches generalizing grammar with
  | nil => rfl
  | cons patch patches induction =>
      rw [List.foldl_cons, List.foldl_cons, induction, induction (empty.merge patch), merge_assoc,
        empty_merge]

end Grammar

/-- Patches that are laid over an assembly one by one are merged into its grammar. -/
theorem Assembly.foldl_patch (assembly : Assembly) (patches : List Grammar) :
    patches.foldl patch assembly =
      { assembly with grammar := patches.foldl Grammar.merge assembly.grammar } := by
  induction patches generalizing assembly with
  | nil => rfl
  | cons patch patches induction => exact induction _

/-- Layering is lawful. A merged grammar has the names of the first grammar in their order and then
the new ones of the second in theirs, and looks each name up in the second grammar first. So merging
is associative, the empty grammar is neutral, a grammar merged into itself stays as it is, and
patches laid one after the other over a grammar or an assembly are one patch, merged in their order.
Grammars that are equal have their productions in the same order. -/
theorem Grammar.layering_lawful (first second third : Grammar) (assembly : Assembly)
    (patches : List Grammar) :
    (first.merge second).names =
        first.names ++ second.names.filter (· ∉ first.names) ∧
      (∀ name, (first.merge second).get? name = (second.get? name).or (first.get? name)) ∧
      (first.merge second).merge third = first.merge (second.merge third) ∧
      empty.merge first = first ∧ first.merge empty = first ∧
      first.merge first = first ∧
      patches.foldl merge first = first.merge (patches.foldl merge empty) ∧
      patches.foldl Assembly.patch assembly = assembly.patch (patches.foldl merge empty) := by
  refine ⟨names_merge first second, get?_merge first second, merge_assoc first second third,
    empty_merge first, merge_empty first, merge_self first, foldl_merge first patches, ?_⟩
  rw [Assembly.foldl_patch, foldl_merge, Assembly.patch]

end ParametricGrammar
