import ParametricGrammar.Proofs.Alike
import ParametricGrammar.Proofs.Dialect.ReadArguments
/-!
# Trees that mean an expression

A tree means an expression if it is translated to nothing that is evaluated in another way, and
denotes no set but one that is evaluated in the same way. The expression also says whether the tree
is translated at all, and whether it passes the check of lookbehinds. What a tree means comes from
what its parts mean, also where their translation fails.
-/

namespace ParametricGrammar

namespace Bnf

open CharSet Dialect

variable {source : List Char} {tree part : Tree} {node other child : Node} {nodes : List Node}

/-- A tree is translated only to what is evaluated like an expression, and exactly if that is read
back. It denotes a set only if the expression is evaluated like that, and is known to match one
character exactly if the expression says so. -/
structure Means (node : Node) (source : List Char) (tree : Tree) : Prop where
  body : ∀ other, bodyOf source tree = .ok other → Alike node other
  reads : (bodyOf source tree).toOption.isSome = node.isReadable
  fold : ∀ set, fold? source tree = some set → Canonical set.ranges ∧ Alike node (.chars set)
  single : isSingle source tree = node.isOneChar

/-- Expressions that are evaluated alike, and that are read back alike. -/
structure Likewise (node other : Node) : Prop where
  alike : Alike node other
  readable : node.isReadable = other.isReadable
  oneChar : node.isOneChar = other.isOneChar

namespace Likewise

theorem symm (likewise : Likewise node other) : Likewise other node :=
  ⟨likewise.alike.symm, likewise.readable.symm, likewise.oneChar.symm⟩

theorem trans {third : Node} (first : Likewise node other) (second : Likewise other third) :
    Likewise node third :=
  ⟨first.alike.trans second.alike, first.readable.trans second.readable,
    first.oneChar.trans second.oneChar⟩

end Likewise

/-! ### Unions -/

/-- Sets that may be missing are combined to a set only if all of them are there. -/
theorem exists_of_foldl_bind {combine : CharSet → CharSet → CharSet}
    {sets : List (Option CharSet)} {start : Option CharSet} {set : CharSet}
    (found : sets.foldl (fun all set => all.bind fun all => set.map (combine all)) start =
      some set) :
    ∃ (first : CharSet) (all : List CharSet), start = some first ∧ sets = all.map some ∧
      all.foldl combine first = set := by
  induction sets generalizing start with
  | nil => exact ⟨set, [], found, rfl, rfl⟩
  | cons next sets induction =>
      obtain ⟨both, all, combined, rfl, rfl⟩ := induction found
      obtain ⟨first, rfl, mapped⟩ := Option.bind_eq_some_iff.mp combined
      obtain ⟨other, rfl, rfl⟩ := Option.map_eq_some_iff.mp mapped
      exact ⟨first, other :: all, rfl, rfl, rfl⟩

/-- A union has what any of the sets has. -/
theorem canonical_foldl_union {all : List CharSet} {start : CharSet}
    (canonical : Canonical start.ranges) (valid : ∀ other ∈ all, Canonical other.ranges) :
    Canonical (all.foldl union start).ranges ∧ ∀ char, (all.foldl union start).contains char =
      (start.contains char || all.any (·.contains char)) := by
  induction all generalizing start with
  | nil => exact ⟨canonical, fun char => (Bool.or_false _).symm⟩
  | cons first all induction =>
      rw [List.forall_mem_cons] at valid
      have canonicalBoth : Canonical (start.union first).ranges := canonical_ofRanges _
      obtain ⟨canonicalAll, members⟩ := induction canonicalBoth valid.2
      refine ⟨canonicalAll, fun char => ?_⟩
      have both : (start.union first).contains char =
          (start.contains char || first.contains char) := has_union canonical valid.1 char.val
      rw [List.foldl_cons, members, both, List.any_cons, Bool.or_assoc]

theorem exists_of_unionAll {sets : List (Option CharSet)} {set : CharSet}
    (found : unionAll sets = some set) :
    ∃ all : List CharSet, sets = all.map some ∧
      ((∀ other ∈ all, Canonical other.ranges) → Canonical set.ranges ∧
        ∀ char, set.contains char = all.any (·.contains char)) := by
  have folded : sets.foldl (fun all set => all.bind fun all => set.map all.union)
      (some .empty) = some set := by
    cases sets <;> exact found
  obtain ⟨_, all, ⟨⟩, same, rfl⟩ := exists_of_foldl_bind folded
  have none : Canonical CharSet.empty.ranges := by decide
  exact ⟨all, same, canonical_foldl_union none⟩

namespace Means

theorem of_likewise (means : Means node source tree) (likewise : Likewise other node) :
    Means other source tree where
  body _ found := likewise.alike.trans (means.body _ found)
  reads := means.reads.trans likewise.readable.symm
  fold _ found := (means.fold _ found).imp_right likewise.alike.trans
  single := means.single.trans likewise.oneChar.symm

theorem of_denotes {meaning : Meaning} (denotes : Denotes source tree meaning)
    (readable : meaning.node.isReadable = true)
    (sets : ∀ set ∈ meaning.set?, Canonical set.ranges ∧ Alike meaning.node (.chars set))
    (single : meaning.single = meaning.node.isOneChar) : Means meaning.node source tree where
  body other found := by
    obtain rfl : meaning.node = other := Except.ok.inj (denotes.body.symm.trans found)
    exact .refl _
  reads := by
    rw [denotes.body, readable]
    rfl
  fold set found := sets set (denotes.fold.symm.trans found)
  single := denotes.single.trans single

private theorem of_echoes (echoes : Echoes source tree part) (inside : Means node source part) :
    Means node source tree where
  body other found := inside.body other (echoes.body ▸ found)
  reads := echoes.body ▸ inside.reads
  fold set found := inside.fold set (echoes.fold ▸ found)
  single := echoes.single.trans inside.single

/-! ### Parts -/

theorem atom (kind : tree.name = "atom") (only : tree.content = [part])
    (inside : Means node source part) : Means node source tree :=
  .of_echoes (.atom kind only) inside

theorem group (kind : tree.name = "group") (body : tree.child? "alternation" = some part)
    (inside : Means node source part) : Means node source tree :=
  .of_echoes (.group kind body) inside

theorem plain (kind : tree.name = "quantified") (atom : tree.child? "atom" = some part)
    (bare : tree.child? "quantifier" = none) (inside : Means node source part) :
    Means node source tree :=
  .of_echoes (.quantified kind atom bare) inside

theorem difference (kind : tree.name = "difference")
    (parts : List.Forall₂ (fun part node => Means node source part)
      (tree.children "quantified") [node]) : Means node source tree := by
  obtain ⟨part, _, inside, none, only⟩ := List.forall₂_cons_right_iff.mp parts
  cases none
  exact .of_echoes (.difference kind only) inside

section

variable {trees : List Tree}
  (parts : List.Forall₂ (fun part node => Means node source part) trees nodes)
include parts

/-- What trees are translated to is evaluated like what they mean. -/
theorem alike_of_mapM {others : List Node}
    (found : (trees.map (bodyOf source)).mapM id = .ok others) :
    List.Forall₂ Alike nodes others := by
  have all := List.forall₂_map_left_iff.mp (mapM_eq_ok_iff.mp found)
  exact forall₂_comp parts.flip all fun means translated => means.body _ translated

private theorem isSome_mapM_bodyOf :
    ((trees.map (bodyOf source)).mapM id).toOption.isSome = nodes.all Node.isReadable := by
  rw [isSome_mapM, List.all_map]
  exact all_eq_of_forall₂ parts fun _ _ means => means.reads

private theorem map_isSingle : trees.map (isSingle source) = nodes.map Node.isOneChar :=
  map_eq_of_forall₂ parts fun _ _ means => means.single

/-- Where all parts denote sets, each set is evaluated like what its part means. -/
theorem forall₂_of_map_fold? {all : List CharSet}
    (same : trees.map (fold? source) = all.map some) :
    List.Forall₂ (fun node set => Canonical set.ranges ∧ Alike node (.chars set)) nodes all := by
  rw [← List.forall₂_eq_eq_eq, List.forall₂_map_left_iff, List.forall₂_map_right_iff] at same
  exact forall₂_comp parts.flip same fun means folded => means.fold _ folded

end

private theorem alike_soleOr {combine : List Node → Node} {others : List Node} {result : Node}
    (single : ∀ node, Alike (combine [node]) node)
    (congruent : ∀ {lefts rights}, List.Forall₂ Alike lefts rights →
      Alike (combine lefts) (combine rights))
    (all : List.Forall₂ Alike nodes others) (same : soleOr combine others = result) :
    Alike (combine nodes) result := by
  refine (congruent all).trans (same ▸ ?_)
  unfold soleOr
  split
  · exact single _
  · exact .refl _

theorem sequence (kind : tree.name = "sequence")
    (parts : List.Forall₂ (fun part node => Means node source part)
      (tree.children "difference") nodes) : Means (.sequence nodes) source tree where
  body other found := by
    rw [bodyOf_eq, bodyParts.eq_def, kind] at found
    simp only [partsOf_map] at found
    obtain ⟨others, all, same⟩ := bind_eq_ok_iff.mp found
    exact alike_soleOr Alike.sequence_singleton Alike.sequence (alike_of_mapM parts all)
      (Except.ok.inj same)
  reads := by
    rw [bodyOf_eq, bodyParts.eq_def, kind]
    simp only [partsOf_map, isSome_bind_pure]
    rw [Node.isReadable, Node.areReadable_eq, ← isSome_mapM_bodyOf parts]
    rfl
  fold set found := by
    rw [fold?_eq, foldParts.eq_def, kind] at found
    simp only [partsOf_map] at found
    split at found
    · rename_i only sole
      have same : (tree.children "difference").map (fold? source) = [set].map some := by
        rw [List.map_singleton, ← found]
        exact sole
      obtain ⟨node, _, holds, none, rfl⟩ :=
        List.forall₂_cons_right_iff.mp (forall₂_of_map_fold? parts same)
      cases none
      exact ⟨holds.1, (Alike.sequence_singleton node).trans holds.2⟩
    · cases found
  single := by
    have singles := map_isSingle parts
    rw [Tree.children] at singles
    rw [isSingle_eq, singleParts.eq_def, kind]
    simp only [partsOf_map, singles]
    rcases nodes with _ | ⟨first, _ | ⟨second, more⟩⟩ <;> rfl

/-- Parts that denote sets together denote their union. -/
theorem alike_of_unionAll {trees : List Tree} {set : CharSet}
    (parts : List.Forall₂ (fun part node => Means node source part) trees nodes)
    (found : unionAll (trees.map (fold? source)) = some set) :
    Canonical set.ranges ∧ Alike (.first nodes) (.chars set) := by
  obtain ⟨all, same, holds⟩ := exists_of_unionAll found
  have each := forall₂_of_map_fold? parts same
  obtain ⟨canonical, together⟩ := holds (forall_of_forall₂ each fun _ _ _ set => set.1)
  have sets : List.Forall₂ Alike nodes (all.map .chars) :=
    List.forall₂_map_right_iff.mpr (each.imp fun _ _ holds => holds.2)
  exact ⟨canonical, (Alike.first sets).trans (Alike.first_chars together)⟩

theorem alternation (kind : tree.name = "alternation")
    (parts : List.Forall₂ (fun part node => Means node source part)
      (tree.children "sequence") nodes) : Means (.first nodes) source tree where
  body other found := by
    rw [bodyOf_eq, bodyParts.eq_def, kind] at found
    simp only [partsOf_map] at found
    obtain ⟨others, all, same⟩ := bind_eq_ok_iff.mp found
    exact alike_soleOr Alike.first_singleton Alike.first (alike_of_mapM parts all)
      (Except.ok.inj same)
  reads := by
    rw [bodyOf_eq, bodyParts.eq_def, kind]
    simp only [partsOf_map, isSome_bind_pure]
    rw [Node.isReadable, Node.areReadable_eq, ← isSome_mapM_bodyOf parts]
    rfl
  fold set found := by
    rw [fold?_eq, foldParts.eq_def, kind] at found
    simp only [partsOf_map] at found
    exact alike_of_unionAll parts found
  single := by
    have singles := map_isSingle parts
    rw [Tree.children] at singles
    rw [isSingle_eq, singleParts.eq_def, kind]
    simp only [partsOf_map, singles]
    rw [Node.isOneChar, Node.areOneChar_eq, List.all_map]
    rfl

/-! ### Repetitions -/

section

variable {quantifier : Tree} (kind : tree.name = "quantified")
include kind

private theorem bodyOf_quantified (atom : tree.child? "atom" = some part) :
    bodyOf source tree = quantifiedOf source tree (some (bodyOf source part)) := by
  rw [Tree.child?] at atom
  rw [bodyOf_eq, bodyParts.eq_def, kind]
  simp only [part?_map, atom, Option.map_some]

variable (behind : tree.child? "quantifier" = some quantifier)
include behind

private theorem fold?_repeated : fold? source tree = none := by
  rw [fold?_eq, foldParts.eq_def, kind]
  simp [behind]

private theorem isSingle_repeated : isSingle source tree = false := by
  rw [isSingle_eq, singleParts.eq_def, kind]
  simp [behind]

variable (atom : tree.child? "atom" = some part)
include atom

theorem marked (mark : Mark) (written : quantifier.text source = String.ofList [mark.char])
    (inside : Means node source part) : Means (mark.repeated node) source tree := by
  have body : bodyOf source tree =
      (bodyOf source part >>= fun node => pure (mark.repeated node)) := by
    rw [bodyOf_quantified kind atom]
    simp only [quantifiedOf, behind, written, Option.getD_some]
    cases mark <;> rfl
  refine ⟨fun other found => ?_, ?_, by simp [fold?_repeated kind behind], ?_⟩
  · rw [body] at found
    obtain ⟨result, found, same⟩ := bind_eq_ok_iff.mp found
    have alike := inside.body result found
    cases mark <;> cases same <;> exact alike.repeated _ _
  · rw [body, isSome_bind_pure, inside.reads]
    cases mark <;> rfl
  · rw [isSingle_repeated kind behind]
    cases mark <;> rfl

theorem counted {sum : Tree} {count : Bound} {total : Total}
    (written : WrittenAs (countChars total) source quantifier)
    (counts : quantifier.child? "param-sum" = some sum) (stands : total.Stands source sum)
    (bound : total.bound? = if count.isReadable then some count else none)
    (inside : Means node source part) : Means (.repeated node count (some count)) source tree := by
  have brace : (quantifier.text source).toList.head? = some '{' := by
    rw [written, String.toList_ofList]
    rfl
  have body : bodyOf source tree = (bodyOf source part >>= fun node =>
      boundOf source sum >>= fun count => pure (.repeated node count (some count))) := by
    rw [bodyOf_quantified kind atom]
    simp only [quantifiedOf, behind, Option.getD_some]
    congr 1
    funext node
    split
    · rename_i mark
      simp [mark] at brace
    · rename_i mark
      simp [mark] at brace
    · rename_i mark
      simp [mark] at brace
    · simp only [Tree.required, counts]
      rfl
  have bounds : (boundOf source sum).toOption = _ := stands.toOption_boundOf.trans bound
  refine ⟨fun other found => ?_, ?_, by simp [fold?_repeated kind behind], ?_⟩
  · rw [body] at found
    obtain ⟨result, translated, rest⟩ := bind_eq_ok_iff.mp found
    obtain ⟨read, reads, same⟩ := bind_eq_ok_iff.mp rest
    rw [toOption_eq_some_iff.mpr reads, eq_comm, Option.ite_none_right_eq_some] at bounds
    cases bounds.2
    cases same
    exact (inside.body result translated).repeated _ _
  · rw [body, Node.isReadable, ← inside.reads]
    cases bodyOf source part with
    | error error => simp [bind, Except.bind, Except.toOption]
    | ok result =>
        change (boundOf source sum >>= _).toOption.isSome = _
        rw [isSome_bind_pure, bounds]
        cases count.isReadable <;> rfl
  · rw [isSingle_repeated kind behind]
    rfl

end

/-! ### Lookarounds -/

section

variable {positive : Bool} (kind : tree.name = "lookaround")
include kind

private theorem fold?_lookaround : fold? source tree = none := by
  rw [fold?_eq, foldParts.eq_def, kind]
  rfl

private theorem isSingle_lookaround : isSingle source tree = false := by
  have fold : fold? source tree = none := fold?_lookaround kind
  rw [isSingle_eq, singleParts.eq_def, kind]
  simp [fold]

variable (body : tree.child? "alternation" = some part)
include body

private theorem bodyOf_lookaround :
    bodyOf source tree = lookaroundOf source tree (some (bodyOf source part)) := by
  have found : tree.content.find? (fun child => child.name = "alternation") = some part := body
  rw [bodyOf_eq, bodyParts.eq_def, kind]
  simp only [part?_map, found, Option.map_some]

theorem lookahead
    (looks : ∀ other : Look, (tree.child? other.kind).isSome = decide (Look.ahead positive = other))
    (inside : Means node source part) : Means (.lookahead node positive) source tree := by
  have translated : bodyOf source tree =
      (bodyOf source part >>= fun child => pure (.lookahead child positive)) := by
    have ahead : (tree.child? "lookbehind-positive").isSome = false := by
      cases positive <;> exact looks .behind
    have sign : (tree.child? "lookahead-negative").isNone = positive := by
      have negative : (tree.child? "lookahead-negative").isSome = _ := looks .negative
      rw [← Option.not_isSome, negative]
      cases positive <;> rfl
    rw [bodyOf_lookaround kind body]
    simp only [lookaroundOf, Tree.required, body, ahead, sign, Option.getD_some]
    rfl
  refine ⟨fun other found => ?_, ?_, by simp [fold?_lookaround kind], isSingle_lookaround kind⟩
  · rw [translated] at found
    obtain ⟨result, reads, same⟩ := bind_eq_ok_iff.mp found
    cases same
    exact (inside.body result reads).lookahead positive
  · rw [translated, isSome_bind_pure, inside.reads, Node.isReadable]

theorem lookbehind
    (looks : ∀ other : Look, (tree.child? other.kind).isSome = decide (Look.behind = other))
    (inside : Means node source part) : Means (.lookbehind node) source tree := by
  have translated : bodyOf source tree =
      if isSingle source part then
        (fold? source part).elim (bodyOf source part >>= fun child => pure (.lookbehind child))
          fun set => .ok (.lookbehind (.chars set))
      else
        let span := trimmedSpan part
        .error (.notACharSet (slice source span.start span.stop) span) := by
    have back : (tree.child? "lookbehind-positive").isSome = true := looks .behind
    rw [bodyOf_lookaround kind body]
    simp only [lookaroundOf, Tree.required, body, back, if_true, Option.getD_some, bind,
      Except.bind]
    cases fold? source part <;> rfl
  refine ⟨fun other found => ?_, ?_, by simp [fold?_lookaround kind], isSingle_lookaround kind⟩
  · rw [translated] at found
    split at found
    · cases folded : fold? source part with
      | some set =>
          rw [folded] at found
          cases found
          exact (inside.fold set folded).2.lookbehind
      | none =>
          rw [folded] at found
          obtain ⟨result, reads, same⟩ := bind_eq_ok_iff.mp found
          cases same
          exact (inside.body result reads).lookbehind
    · cases found
  · rw [translated, Node.isReadable, ← inside.single]
    by_cases single : isSingle source part = true
    · -- What is known to match one character is translated.
      have reads : (bodyOf source part).toOption.isSome = true :=
        inside.reads.trans (Node.isReadable_of_isOneChar node (inside.single.symm.trans single))
      rw [if_pos single, single]
      cases fold? source part with
      | some set => rfl
      | none => rw [Option.elim_none, isSome_bind_pure, reads]
    · rw [if_neg single, Bool.eq_false_iff.mpr single]
      rfl

end

/-! ### References -/

section

variable {list : Option Tree} {arguments : List Binding}
  (stands : Option.Rel (fun item tree => item.stands source tree)
    (parameterList (arguments.map argumentItem)) list)
include stands

/-- A list of arguments is translated exactly if all of them are read back. -/
theorem isSome_mapM_argumentOf :
    ((parametersOf list).mapM (argumentOf source)).toOption.isSome =
      arguments.all Binding.isReadable := by
  have stood := List.forall₂_map_right_iff.mp (stands_parameters stands)
  rw [isSome_mapM]
  refine all_eq_of_forall₂ stood fun tree argument translated => ?_
  have read : (argumentOf source tree).toOption =
    if argument.isReadable then some argument else none := translated
  rw [read]
  cases argument.isReadable <;> rfl

/-- A list of arguments is translated to nothing but them. -/
theorem eq_of_mapM_argumentOf {bindings : List Binding}
    (found : (parametersOf list).mapM (argumentOf source) = .ok bindings) :
    bindings = arguments := by
  have stood := List.forall₂_map_right_iff.mp (stands_parameters stands)
  rw [← List.forall₂_eq_eq_eq]
  refine (forall₂_comp stood.flip (mapM_eq_ok_iff.mp found) ?_).flip
  intro argument tree binding translated read
  have same : (argumentOf source tree).toOption =
    if argument.isReadable then some argument else none := translated
  rw [toOption_eq_some_iff.mpr read, eq_comm, Option.ite_none_right_eq_some] at same
  exact (Option.some.inj same.2).symm

private theorem isNone_parameterList : list.isNone = arguments.isEmpty := by
  cases arguments with
  | nil => rw [eq_none_of_rel stands]; rfl
  | cons first more =>
      obtain ⟨tree, rfl, -⟩ := exists_of_rel stands
      rfl

end

theorem reference {label : Tree} {name : List Char} {arguments : List Binding}
    (kind : tree.name = "reference") (named : tree.child? "production-name" = some label)
    (written : WrittenAs name source label)
    (list : Option.Rel (fun item tree => item.stands source tree)
      (parameterList (arguments.map argumentItem)) (tree.child? "parameter-list")) :
    Means (.reference (String.ofList name) arguments) source tree := by
  have fold : fold? source tree = none := by
    rw [fold?_eq, foldParts.eq_def, kind]
    rfl
  have body : bodyOf source tree =
      ((parametersOf (tree.child? "parameter-list")).mapM (argumentOf source) >>= fun arguments =>
        pure (.reference (String.ofList name) arguments)) := by
    have label : label.text source = String.ofList name := written
    rw [bodyOf_eq, bodyParts.eq_def, kind, ← label]
    simp only [referenceOf, Tree.required, named]
    cases tree.child? "parameter-list" <;> rfl
  refine ⟨fun other found => ?_, ?_, by simp [fold], ?_⟩
  · rw [body] at found
    obtain ⟨bindings, reads, same⟩ := bind_eq_ok_iff.mp found
    cases same
    rw [eq_of_mapM_argumentOf list reads]
    exact .refl _
  · rw [body, isSome_bind_pure, isSome_mapM_argumentOf list, Node.isReadable]
  · rw [isSingle_eq, singleParts.eq_def, kind]
    exact isNone_parameterList list

end Means

end Bnf

end ParametricGrammar
