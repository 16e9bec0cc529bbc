import ParametricGrammar.Proofs.Dialect.AlikeBodies
import ParametricGrammar.Proofs.Dialect.ClauseTranslation
/-!
# Folding

A tree that is built from literals alone denotes a set of characters, which the translation uses in
place of a difference or of the operand of a lookbehind. The expression that the tree is translated
to otherwise is there as well, and is evaluated as the set is: what is left of a choice is a union,
and guards take away what they refuse.
-/

namespace ParametricGrammar

open CharSet

/-! ### Guards -/

namespace Step

variable {production : String} {invoke : Invoke} {parameters : Parameters}

/-- A guard against a set before one character of a class takes the set away from the class. -/
theorem notAhead_andThen_one (other : CharSet) (may : Char → Bool) :
    andThen (Node.evaluate production invoke (.notAhead (.chars other)) parameters) (one may) =
      one fun char => may char && !other.contains char := by
  funext cursor memory
  simp only [andThen, one, Node.notAhead, Node.evaluate]
  cases next : cursor.next? with
  | none => simp [next]
  | some pair =>
      by_cases refused : other.contains pair.1 = true
      · simp [refused]
      · cases taken : may pair.1 <;> simp [next, refused, taken]

end Step

namespace Alike

variable {sets : List CharSet} {first set : CharSet}

/-- A set behind guards against others is the set without their members. -/
theorem sequence_guards (members : ∀ char, set.contains char =
      (first.contains char && sets.all fun other => !other.contains char)) :
    Alike (.sequence (sets.map (fun other => .notAhead (.chars other)) ++ [.chars first]))
      (.chars set) := by
  intro production invoke
  funext parameters
  rw [Node.evaluate_sequence, Node.evaluate_chars, funext members]
  clear members
  induction sets with
  | nil =>
      rw [List.map_nil, List.nil_append, Node.evaluateAll_cons, Node.evaluateAll_nil,
        Step.andThen_stay, Node.evaluate_chars]
      simp
  | cons other sets induction =>
      rw [List.map_cons, List.cons_append, Node.evaluateAll_cons, induction,
        Step.notAhead_andThen_one]
      congr 1
      funext char
      rw [List.all_cons, Bool.and_assoc, Bool.and_comm (!other.contains char)]

end Alike

namespace Bnf

namespace Dialect

variable {source : List Char} {tree part : Tree} {set : CharSet}

/-! ### Differences -/

/-- What is left of a set is what none of the excluded ones has. -/
theorem canonical_foldl_minus {all : List CharSet} {start : CharSet}
    (canonical : Canonical start.ranges) (valid : ∀ other ∈ all, Canonical other.ranges) :
    Canonical (all.foldl minus start).ranges ∧ ∀ char, (all.foldl minus start).contains char =
      (start.contains char && all.all fun other => !other.contains char) := by
  induction all generalizing start with
  | nil => exact ⟨canonical, fun char => (Bool.and_true _).symm⟩
  | cons first all induction =>
      rw [List.forall_mem_cons] at valid
      have canonicalLeft : Canonical (start.minus first).ranges :=
        (canonical_carveAll canonical valid.1.ascending).1
      obtain ⟨canonicalAll, members⟩ := induction canonicalLeft valid.2
      refine ⟨canonicalAll, fun char => ?_⟩
      have left : (start.minus first).contains char =
          (start.contains char && !first.contains char) := has_minus canonical valid.1 char.val
      rw [List.foldl_cons, members, left, List.all_cons, Bool.and_assoc]

private theorem exists_of_differenceAll {sets : List (Option CharSet)}
    (found : differenceAll sets = some set) :
    ∃ (first : CharSet) (excluded : List CharSet), sets = some first :: excluded.map some ∧
      excluded.foldl minus first = set := by
  cases sets with
  | nil => cases found
  | cons head sets =>
      obtain ⟨first, excluded, rfl, rfl, left⟩ := exists_of_foldl_bind found
      exact ⟨first, excluded, rfl, left⟩

/-! ### Trees that fold -/

/-- A meaning is a set: it is known to match one character, and its expression is evaluated as the
set is. -/
structure IsSet (meaning : Meaning) (set : CharSet) : Prop where
  canonical : Canonical set.ranges
  single : meaning.single = true
  alike : Alike meaning.node (.chars set)

/-- A tree has a meaning that is every set that it folds to. -/
def Foldable (source : List Char) (tree : Tree) : Prop :=
  ∀ set, fold? source tree = some set → ∃ meaning, Denotes source tree meaning ∧ IsSet meaning set

/-- Where all of some trees fold, all have meanings that are these sets. -/
theorem exists_meanings {trees : List Tree} {all : List CharSet}
    (inside : ∀ part ∈ trees, Foldable source part)
    (folded : trees.map (fold? source) = all.map some) :
    ∃ meanings, List.Forall₂ (Denotes source) trees meanings ∧
      List.Forall₂ IsSet meanings all := by
  induction trees generalizing all with
  | nil =>
      obtain rfl := List.map_eq_nil_iff.mp folded.symm
      exact ⟨[], .nil, .nil⟩
  | cons part trees induction =>
      obtain ⟨first, others, rfl, here, later⟩ := List.map_eq_cons_iff.mp folded.symm
      obtain ⟨head, rest⟩ := List.forall_mem_cons.mp inside
      obtain ⟨meaning, denotes, isSet⟩ := head first here.symm
      obtain ⟨meanings, parts, sets⟩ := induction rest later.symm
      exact ⟨meaning :: meanings, .cons denotes parts, .cons isSet sets⟩

private theorem canonical_of_rangeOf (reads : rangeOf source tree = .ok set) :
    Canonical set.ranges := by
  unfold rangeOf at reads
  split at reads
  · obtain ⟨first, -, reads⟩ := bind_eq_ok_iff.mp reads
    obtain ⟨last, -, same⟩ := bind_eq_ok_iff.mp reads
    cases same
    exact canonical_ofRanges _
  · cases reads

private theorem alike_nodes {meanings : List Meaning} {all : List CharSet}
    (sets : List.Forall₂ IsSet meanings all) :
    List.Forall₂ Alike (meanings.map Meaning.node) (all.map .chars) := by
  rw [List.forall₂_map_left_iff, List.forall₂_map_right_iff]
  exact sets.imp fun _ _ isSet => isSet.alike

private theorem alike_soleOr_first (nodes : List Node) :
    Alike (soleOr .first nodes) (.first nodes) := by
  unfold soleOr
  split
  · exact (Alike.first_singleton _).symm
  · exact .refl _

namespace IsSet

variable {meaning first : Meaning} {meanings excluded : List Meaning}

/-- Alternatives that are sets are their union. -/
theorem alternation {all : List CharSet} (sets : List.Forall₂ IsSet meanings all)
    (canonical : Canonical set.ranges)
    (together : ∀ char, set.contains char = all.any (·.contains char)) :
    IsSet (.alternation meanings) set where
  canonical := canonical
  single := by
    simp only [Meaning.alternation, List.all_map, List.all_eq_true]
    exact forall_of_forall₂ sets.flip fun _ _ _ isSet => isSet.single
  alike := (alike_soleOr_first _).trans
    ((Alike.first (alike_nodes sets)).trans (Alike.first_chars together))

/-- An operand that is a set, guarded against others that are, is evaluated as what is left. -/
theorem guards {taken : CharSet} {all : List CharSet} (isSet : IsSet first taken)
    (sets : List.Forall₂ IsSet excluded all) :
    Alike (.sequence (excluded.map (fun operand => .notAhead operand.node) ++ [first.node]))
      (.chars (all.foldl minus taken)) := by
  have valid : ∀ other ∈ all, Canonical other.ranges :=
    forall_of_forall₂ sets fun _ _ _ isSet => isSet.canonical
  refine Alike.trans (.sequence ?_)
    (Alike.sequence_guards (canonical_foldl_minus isSet.canonical valid).2)
  refine List.rel_append ?_ (.cons isSet.alike .nil)
  rw [List.forall₂_map_left_iff, List.forall₂_map_right_iff]
  exact sets.imp fun _ _ isSet => isSet.alike.lookahead false

/-- An operand without others is the set that it is, and what is left of it is one. -/
theorem difference {taken : CharSet} {all : List CharSet} (isSet : IsSet first taken)
    (sets : List.Forall₂ IsSet excluded all)
    (left : differenceAll (first.set? :: excluded.map Meaning.set?) =
      some (all.foldl minus taken)) :
    IsSet (.difference first excluded) (all.foldl minus taken) where
  canonical := (canonical_foldl_minus isSet.canonical
    (forall_of_forall₂ sets fun _ _ _ isSet => isSet.canonical)).1
  single := isSet.single
  alike := by
    cases sets with
    | nil => exact isSet.alike
    | cons _ _ =>
        simp only [Meaning.difference, left]
        exact .refl _

end IsSet

namespace Foldable

private theorem of_none (none : fold? source tree = none) : Foldable source tree := by
  intro set folded
  rw [none] at folded
  cases folded

private theorem of_denotes {meaning : Meaning} (denotes : Denotes source tree meaning)
    (sets : ∀ set, meaning.set? = some set → IsSet meaning set) : Foldable source tree :=
  fun set folded => ⟨meaning, denotes, sets set (denotes.fold.symm.trans folded)⟩

private theorem alternation (kind : tree.name = "alternation")
    (inside : ∀ part ∈ tree.children "sequence", Foldable source part) : Foldable source tree := by
  intro set folded
  rw [fold?_eq, foldParts.eq_def, kind] at folded
  simp only [partsOf_map] at folded
  obtain ⟨all, same, holds⟩ := exists_of_unionAll folded
  obtain ⟨meanings, parts, sets⟩ := exists_meanings inside same
  obtain ⟨canonical, together⟩ :=
    holds (forall_of_forall₂ sets fun _ _ _ isSet => isSet.canonical)
  exact ⟨.alternation meanings, .alternation kind parts, .alternation sets canonical together⟩

private theorem sequence (kind : tree.name = "sequence")
    (inside : ∀ part ∈ tree.children "difference", Foldable source part) :
    Foldable source tree := by
  intro set folded
  rw [fold?_eq, foldParts.eq_def, kind] at folded
  simp only [partsOf_map] at folded
  split at folded
  · rename_i only same
    obtain ⟨part, children, rfl⟩ := List.map_eq_singleton_iff.mp same
    have member : part ∈ tree.children "difference" := by
      rw [Tree.children, children]
      exact List.mem_singleton_self part
    obtain ⟨meaning, denotes, isSet⟩ := inside part member set folded
    have parts : Parts "difference" source tree.content [meaning] := by
      rw [Parts, children]
      exact .cons denotes .nil
    exact ⟨.sequence [meaning], .sequence kind parts, isSet⟩
  · cases folded

/-- Where a difference folds, its operands are sets, and it is what is left of the first one. -/
theorem exists_operands (kind : tree.name = "difference")
    (inside : ∀ part ∈ tree.children "quantified", Foldable source part)
    (folded : fold? source tree = some set) :
    ∃ (first : Meaning) (excluded : List Meaning) (taken : CharSet) (all : List CharSet),
      List.Forall₂ (Denotes source) (tree.children "quantified") (first :: excluded) ∧
        IsSet first taken ∧ List.Forall₂ IsSet excluded all ∧ all.foldl minus taken = set := by
  rw [fold?_eq, foldParts.eq_def, kind] at folded
  simp only [partsOf_map] at folded
  obtain ⟨taken, all, same, left⟩ := exists_of_differenceAll folded
  have both : (tree.children "quantified").map (fold? source) = (taken :: all).map some := same
  obtain ⟨meanings, parts, isSets⟩ := exists_meanings inside both
  obtain ⟨first, excluded, isSet, others, rfl⟩ := List.forall₂_cons_right_iff.mp isSets
  exact ⟨first, excluded, taken, all, parts, isSet, others, left⟩

private theorem difference (kind : tree.name = "difference")
    (inside : ∀ part ∈ tree.children "quantified", Foldable source part) :
    Foldable source tree := by
  intro set folded
  obtain ⟨first, excluded, taken, all, parts, isSet, others, rfl⟩ :=
    exists_operands kind inside folded
  have denotes : Denotes source tree (.difference first excluded) := .difference kind parts
  exact ⟨_, denotes, isSet.difference others (denotes.fold.symm.trans folded)⟩

private theorem quantified (kind : tree.name = "quantified")
    (inside : ∀ part, tree.child? "atom" = some part → Foldable source part) :
    Foldable source tree := by
  intro set folded
  rw [fold?_eq, foldParts.eq_def, kind] at folded
  simp only [part?_map] at folded
  split at folded
  · cases folded
  · rename_i bare
    rw [Bool.not_eq_true, Option.isSome_eq_false_iff, Option.isNone_iff_eq_none] at bare
    obtain ⟨part, found, here⟩ := Option.map_eq_some_iff.mp (Option.join_eq_some_iff.mp folded)
    obtain ⟨meaning, denotes, isSet⟩ := inside part found set here
    exact ⟨meaning, .quantified kind found bare denotes, isSet⟩

private theorem atom (kind : tree.name = "atom") (only : tree.content = [part])
    (inside : Foldable source part) : Foldable source tree := by
  intro set folded
  rw [fold?_eq, foldParts.eq_def, kind, only] at folded
  obtain ⟨meaning, denotes, isSet⟩ := inside set (by simpa using folded)
  exact ⟨meaning, .atom kind only denotes, isSet⟩

private theorem group (kind : tree.name = "group")
    (inside : ∀ part, tree.child? "alternation" = some part → Foldable source part) :
    Foldable source tree := by
  intro set folded
  rw [fold?_eq, foldParts.eq_def, kind] at folded
  simp only [part?_map] at folded
  obtain ⟨part, found, here⟩ := Option.map_eq_some_iff.mp (Option.join_eq_some_iff.mp folded)
  obtain ⟨meaning, denotes, isSet⟩ := inside part found set here
  exact ⟨meaning, .group kind found denotes, isSet⟩

private theorem hexChar (kind : tree.name = "hex-char") : Foldable source tree := by
  intro set folded
  rw [fold?_eq, foldParts.eq_def, kind] at folded
  obtain ⟨code, read, rfl⟩ := Option.map_eq_some_iff.mp folded
  cases reads : hexOf source tree with
  | error error =>
      rw [reads] at read
      cases read
  | ok value =>
      rw [reads] at read
      cases read
      exact ⟨_, .hexChar kind reads, canonical_ofRanges _, rfl, .refl _⟩

private theorem codePointRange (kind : tree.name = "code-point-range") : Foldable source tree := by
  intro set folded
  rw [fold?_eq, foldParts.eq_def, kind] at folded
  change (rangeOf source tree).toOption = some set at folded
  cases reads : rangeOf source tree with
  | error error =>
      rw [reads] at folded
      cases folded
  | ok value =>
      rw [reads] at folded
      cases folded
      exact ⟨_, .codePointRange kind reads, canonical_of_rangeOf reads, rfl, .refl _⟩

private theorem quotedString {quote : Char} {run : List Char} (kind : tree.name = "quoted-string")
    (written : tree.text source = String.ofList (quote :: (run ++ [quote]))) :
    Foldable source tree := by
  refine of_denotes (.quotedString kind written) fun set folded => ?_
  rcases run with _ | ⟨char, _ | ⟨second, more⟩⟩
  · cases folded
  · cases folded
    exact ⟨canonical_ofRanges _, rfl, Alike.literal_single char⟩
  · cases folded

private theorem anyChar (kind : tree.name = "any-char") : Foldable source tree := by
  refine of_denotes (.anyChar kind) fun set folded => ?_
  cases folded
  exact ⟨valid_any.canonical, rfl, .refl _⟩

end Foldable

/-- Whatever a tree of a body folds to is a meaning that it has. -/
theorem Parsed.foldable (parsed : Parsed source tree) (kind : tree.name ∈ bodyKinds) :
    Foldable source tree := by
  induction tree using Tree.induction with
  | step tree induction =>
      have children : ∀ name ∈ bodyKinds, ∀ part ∈ tree.children name, Foldable source part := by
        intro name known part member
        obtain ⟨inside, named⟩ := parsed.of_children member
        exact induction part (List.mem_of_mem_filter member) inside (named ▸ known)
      have child : ∀ name ∈ bodyKinds, ∀ part, tree.child? name = some part →
          Foldable source part := by
        intro name known part found
        obtain ⟨inside, named⟩ := parsed.of_child? found
        exact induction part (List.mem_of_find?_eq_some found) inside (named ▸ known)
      have unfoldable : foldParts source tree
          (tree.content.map fun part => (part, fold? source part)) = none →
            Foldable source tree :=
        fun none => .of_none (fold?_eq.trans none)
      simp only [bodyKinds, closedAtoms, List.cons_append, List.nil_append, List.mem_cons,
        List.not_mem_nil, or_false] at kind
      rcases kind with kind | kind | kind | kind | kind | kind | kind | kind | kind | kind | kind |
        kind
      · exact .alternation kind (children _ (by decide))
      · exact .sequence kind (children _ (by decide))
      · exact .difference kind (children _ (by decide))
      · exact .quantified kind (child _ (by decide))
      · obtain ⟨part, only, form⟩ := parsed.atom kind
        have member : part ∈ tree.content := by simp [only]
        refine .atom kind only ?_
        rcases form with closed | ⟨named, -⟩
        · exact induction part member (parsed.part member) (List.mem_append_right _ closed)
        · refine .of_none ?_
          rw [fold?_eq, foldParts.eq_def, named]
          rfl
      · exact unfoldable (by rw [foldParts.eq_def, kind]; rfl)
      · exact unfoldable (by rw [foldParts.eq_def, kind]; rfl)
      · exact .group kind (child _ (by decide))
      · exact .codePointRange kind
      · exact .hexChar kind
      · obtain ⟨quote, run, -, -, -, written⟩ := parsed.quotedString kind
        exact .quotedString kind written
      · exact .anyChar kind

end Dialect

end Bnf

/-! ### Texts -/

/-- An expression acts as a set: in every production, however calls are evaluated, and at every
place, it is evaluated as the set is. Both miss, or both match the same character and no tree. -/
def Node.ActsAs (node : Node) (set : CharSet) : Prop :=
  ∀ (production : String) (invoke : Invoke) (parameters : Parameters) (place : Cursor)
    (memory : Memory),
    let reply := node.evaluate production invoke parameters place memory
    (Node.chars set).evaluate production invoke parameters place memory = reply ∧
      (reply = (.unmatched, memory) ∨
        ∃ char stop, place.Spans [char] stop ∧ set.contains char = true ∧
          reply = (.matched [] stop, memory))

private theorem Alike.actsAs {node : Node} {set : CharSet} (alike : Alike node (.chars set)) :
    node.ActsAs set := by
  intro production invoke parameters place memory
  rw [alike production invoke]
  refine ⟨rfl, ?_⟩
  simp only [Node.evaluate]
  cases next : place.next? with
  | none => exact .inl rfl
  | some pair =>
      by_cases taken : set.contains pair.1 = true
      · exact .inr ⟨pair.1, pair.2, Cursor.next?_eq_some_iff.mp next, taken, by simp [taken]⟩
      · exact .inl (by simp [taken])

namespace Bnf

open Dialect

variable {source : List Char} {tree : Tree} {set : CharSet}

/-- A difference that folds is translated to the set, and its guards and its first operand act as
the set. -/
theorem Dialect.Parsed.actsAs_of_difference {first second : Tree} {more : List Tree}
    (parsed : Parsed source tree) (kind : tree.name = "difference")
    (operands : tree.children "quantified" = first :: second :: more)
    (folded : fold? source tree = some set) :
    bodyOf source tree = .ok (.chars set) ∧
      ∃ (head : Node) (guards : List Node), bodyOf source first = .ok head ∧
        (second :: more).mapM (bodyOf source) = .ok guards ∧
        (Node.sequence (guards.map .notAhead ++ [head])).ActsAs set := by
  have inside : ∀ part ∈ tree.children "quantified", Foldable source part := by
    intro part among
    obtain ⟨parsed, named⟩ := parsed.of_children among
    exact parsed.foldable (named ▸ by decide)
  obtain ⟨meaning, excluded, taken, all, parts, isSet, others, rfl⟩ :=
    Foldable.exists_operands kind inside folded
  have denotes : Denotes source tree (.difference meaning excluded) := .difference kind parts
  have left : differenceAll (meaning.set? :: excluded.map Meaning.set?) =
      some (all.foldl CharSet.minus taken) := denotes.fold.symm.trans folded
  rw [operands] at parts
  obtain ⟨here, later⟩ := List.forall₂_cons.mp parts
  refine ⟨?_, meaning.node, excluded.map Meaning.node, here.body, ?_, ?_⟩
  · rw [denotes.body]
    cases later with
    | cons _ _ => simp only [Meaning.difference, left]
  · rw [mapM_eq_ok_iff, List.forall₂_map_right_iff]
    exact later.imp fun _ _ denotes => denotes.body
  · rw [List.map_map]
    exact (isSet.guards others).actsAs

/-- A lookbehind whose operand folds is translated to one of the set, and what the operand is
translated to acts as the set. -/
theorem Dialect.Parsed.actsAs_of_lookbehind {operand : Tree} (parsed : Parsed source tree)
    (kind : tree.name = "lookaround") (behind : (tree.child? "lookbehind-positive").isSome = true)
    (found : tree.child? "alternation" = some operand)
    (folded : fold? source operand = some set) :
    bodyOf source tree = .ok (.lookbehind (.chars set)) ∧
      ∃ node, bodyOf source operand = .ok node ∧ node.ActsAs set := by
  obtain ⟨inside, named⟩ := parsed.of_child? found
  have known : operand.name ∈ bodyKinds := named ▸ by decide
  obtain ⟨meaning, denotes, isSet⟩ := inside.foldable known set folded
  refine ⟨?_, meaning.node, denotes.body, isSet.alike.actsAs⟩
  have single : isSingle source operand = true := denotes.single.trans isSet.single
  rw [bodyOf_eq, bodyParts.eq_def, kind]
  simp only [lookaroundOf, Tree.required_eq found]
  change (if _ then if _ then _ else _ else _) = _
  rw [if_pos behind, if_pos single, folded]
  rfl

/-- Folding keeps the meaning. In every tree that the dialect gives for a text, whatever the limit
and the cache, a difference that denotes a set is translated to the set, and its guards and first
operand are there and act as it. The operand of a lookbehind that denotes a set is replaced by it,
and what it is translated to on its own is there and acts as the set. -/
theorem folding_keeps_meaning {setting : Setting} {text : List Char} {root : Tree}
    (dialect : setting.grammar = grammar)
    (parses : (setting.parseAll "grammar" text).1 = .ok root) :
    ∀ entry ∈ root.preorder 0,
      (∀ (first second : Tree) (more : List Tree) (set : CharSet),
        entry.2.name = "difference" → entry.2.children "quantified" = first :: second :: more →
        fold? text entry.2 = some set →
          bodyOf text entry.2 = .ok (.chars set) ∧
          ∃ (head : Node) (guards : List Node), bodyOf text first = .ok head ∧
            (second :: more).mapM (bodyOf text) = .ok guards ∧
            (Node.sequence (guards.map .notAhead ++ [head])).ActsAs set) ∧
      (∀ (operand : Tree) (set : CharSet),
        entry.2.name = "lookaround" → (entry.2.child? "lookbehind-positive").isSome = true →
        entry.2.child? "alternation" = some operand → fold? text operand = some set →
          bodyOf text entry.2 = .ok (.lookbehind (.chars set)) ∧
          ∃ node, bodyOf text operand = .ok node ∧ node.ActsAs set) := by
  intro entry member
  have parsed := parsed_of_parseAll dialect parses entry member
  constructor
  · intro first second more set kind operands folded
    exact parsed.actsAs_of_difference kind operands folded
  · intro operand set kind behind found folded
    exact parsed.actsAs_of_lookbehind kind behind found folded

/-- A difference and the operand of a lookbehind, both built from literals alone. -/
def foldingText : List Char :=
  "rest ::= . - 'b' - ( 'c' | ['x'-'z'] )\nlast ::= [ lookbehind = 'q' | x41 ] 'z'\n".toList

/-- What the difference denotes. -/
def restSet : CharSet := ⟨[⟨0, 97⟩, ⟨100, 119⟩, ⟨123, 0x10FFFF⟩]⟩

/-- What the operand of the lookbehind denotes. -/
def lastSet : CharSet := ⟨[⟨65, 65⟩, ⟨113, 113⟩]⟩

theorem folding_keeps_meaning_rest_last :
    ∃ root, (Setting.parseAll ⟨grammar, false, 1024⟩ "grammar" foldingText).1 = .ok root ∧
      (∃ entry ∈ root.preorder 0, ∃ first second more, entry.2.name = "difference" ∧
        entry.2.children "quantified" = first :: second :: more ∧
        fold? foldingText entry.2 = some restSet ∧
        bodyOf foldingText entry.2 = .ok (.chars restSet) ∧
        ∃ (head : Node) (guards : List Node), bodyOf foldingText first = .ok head ∧
          (second :: more).mapM (bodyOf foldingText) = .ok guards ∧
          (Node.sequence (guards.map .notAhead ++ [head])).ActsAs restSet) ∧
      ∃ entry ∈ root.preorder 0, ∃ operand, entry.2.name = "lookaround" ∧
        (entry.2.child? "lookbehind-positive").isSome = true ∧
        entry.2.child? "alternation" = some operand ∧
        fold? foldingText operand = some lastSet ∧
        bodyOf foldingText entry.2 = .ok (.lookbehind (.chars lastSet)) ∧
        ∃ node, bodyOf foldingText operand = .ok node ∧ node.ActsAs lastSet := by
  let isRest (tree : Tree) : Bool := tree.name = "difference" &&
    2 ≤ (tree.children "quantified").length && fold? foldingText tree = some restSet
  let isLast (tree : Tree) : Bool := tree.name = "lookaround" &&
    (tree.child? "lookbehind-positive").isSome &&
      (tree.child? "alternation").any fun operand => fold? foldingText operand = some lastSet
  have checked : ((Setting.parseAll ⟨grammar, false, 1024⟩ "grammar" foldingText).1.toOption.any
      fun root => (root.preorder 0).any (fun entry => isRest entry.2) &&
        (root.preorder 0).any fun entry => isLast entry.2) = true := by
    decide +kernel
  cases parses : (Setting.parseAll ⟨grammar, false, 1024⟩ "grammar" foldingText).1 with
  | error error =>
      rw [parses] at checked
      cases checked
  | ok root =>
      rw [parses] at checked
      obtain ⟨rest, last⟩ := Bool.and_eq_true_iff.mp checked
      refine ⟨root, rfl, ?_, ?_⟩
      · obtain ⟨entry, member, found⟩ := List.any_eq_true.mp rest
        simp only [isRest, Bool.and_eq_true, decide_eq_true_eq] at found
        obtain ⟨⟨kind, many⟩, folded⟩ := found
        obtain ⟨first, others, operands⟩ :=
          List.exists_cons_of_length_pos (Nat.lt_of_lt_of_le Nat.zero_lt_two many)
        obtain ⟨second, more, rfl⟩ : ∃ second more, others = second :: more := by
          rw [operands] at many
          exact List.exists_cons_of_length_pos (Nat.le_of_succ_le_succ many)
        exact ⟨entry, member, first, second, more, kind, operands, folded,
          (folding_keeps_meaning rfl parses entry member).1 first second more restSet kind operands
            folded⟩
      · obtain ⟨entry, member, found⟩ := List.any_eq_true.mp last
        simp only [isLast, Bool.and_eq_true, decide_eq_true_eq, Option.any_eq_true] at found
        obtain ⟨⟨kind, behind⟩, operand, inside, folded⟩ := found
        exact ⟨entry, member, operand, kind, behind, inside, folded,
          (folding_keeps_meaning rfl parses entry member).2 operand lastSet kind behind inside
            folded⟩

end Bnf

end ParametricGrammar
