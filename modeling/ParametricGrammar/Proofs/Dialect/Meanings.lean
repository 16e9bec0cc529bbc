import Mathlib.Data.List.Forall2
import ParametricGrammar.Bnf.Body
/-!
# What the trees of bodies denote

A tree of a body has an expression, perhaps a character set, and may be known to match one
character. Each of the three comes from those of the parts, so one meaning for a tree holds them
all, with one way to combine meanings for each kind of tree.
-/

namespace ParametricGrammar

theorem forall_of_forall₂ {α β : Type} {relates : α → β → Prop} {holds : β → Prop} {items : List α}
    {values : List β} (all : List.Forall₂ relates items values)
    (implies : ∀ item ∈ items, ∀ value, relates item value → holds value) :
    ∀ value ∈ values, holds value := by
  induction all with
  | nil => exact fun _ member => absurd member List.not_mem_nil
  | cons head _ induction =>
      rw [List.forall_mem_cons]
      exact ⟨implies _ List.mem_cons_self _ head,
        induction fun item member => implies item (.tail _ member)⟩

/-- Two relations between lists, item by item, one after the other. -/
theorem forall₂_comp {α β γ : Type} {left : α → β → Prop} {right : β → γ → Prop}
    {both : α → γ → Prop} {items : List α} {values : List β} {others : List γ}
    (before : List.Forall₂ left items values) (behind : List.Forall₂ right values others)
    (compose : ∀ {item value other}, left item value → right value other → both item other) :
    List.Forall₂ both items others := by
  induction before generalizing others with
  | nil =>
      cases behind
      exact .nil
  | cons head _ induction =>
      obtain ⟨other, others, next, rest, rfl⟩ := List.forall₂_cons_left_iff.mp behind
      exact .cons (compose head next) (induction rest)

section

variable {α β : Type} {relates : α → β → Prop} {items : List α} {values : List β}
  (all : List.Forall₂ relates items values)
include all

/-- Functions that agree on related items make equal lists of related ones. -/
theorem map_eq_of_forall₂ {γ : Type} {left : α → γ} {right : β → γ}
    (agree : ∀ item value, relates item value → left item = right value) :
    items.map left = values.map right := by
  rw [← List.forall₂_eq_eq_eq, List.forall₂_map_left_iff, List.forall₂_map_right_iff]
  exact all.imp agree

/-- What is decided alike for related items is decided alike for related lists. -/
theorem all_eq_of_forall₂ {left : α → Bool} {right : β → Bool}
    (agree : ∀ item value, relates item value → left item = right value) :
    items.all left = values.all right := by
  induction all with
  | nil => rfl
  | cons head _ induction => rw [List.all_cons, List.all_cons, agree _ _ head, induction]

end

namespace Bnf

variable {source : List Char} {tree : Tree} {trees : List Tree} {name : String}

private theorem bodyAll_eq_map :
    bodyAll source trees = trees.map fun tree => (tree, bodyOf source tree) := by
  induction trees with
  | nil => rfl
  | cons tree trees induction => rw [bodyAll, induction, List.map_cons]

private theorem foldAll_eq_map :
    foldAll source trees = trees.map fun tree => (tree, fold? source tree) := by
  induction trees with
  | nil => rfl
  | cons tree trees induction => rw [foldAll, induction, List.map_cons]

private theorem singleAll_eq_map :
    singleAll source trees = trees.map fun tree => (tree, isSingle source tree) := by
  induction trees with
  | nil => rfl
  | cons tree trees induction => rw [singleAll, induction, List.map_cons]

theorem bodyOf_eq : bodyOf source tree =
    bodyParts source tree (tree.content.map fun part => (part, bodyOf source part)) := by
  rw [← bodyAll_eq_map]
  cases tree
  rfl

theorem fold?_eq : fold? source tree =
    foldParts source tree (tree.content.map fun part => (part, fold? source part)) := by
  rw [← foldAll_eq_map]
  cases tree
  rfl

theorem isSingle_eq : isSingle source tree =
    singleParts source tree (tree.content.map fun part => (part, isSingle source part)) := by
  rw [← singleAll_eq_map]
  cases tree
  rfl

@[simp] theorem partsOf_map {α : Type} (find : Tree → α) :
    partsOf name (trees.map fun tree => (tree, find tree)) =
      (trees.filter fun tree => tree.name = name).map find := by
  simp [partsOf, List.filter_map, Function.comp_def]

@[simp] theorem part?_map {α : Type} (find : Tree → α) :
    part? name (trees.map fun tree => (tree, find tree)) =
      (trees.find? fun tree => tree.name = name).map find := by
  simp [part?, List.find?_map, Function.comp_def]

/-- A tree stands for whatever a part of it stands for. -/
structure Echoes (source : List Char) (tree part : Tree) : Prop where
  body : bodyOf source tree = bodyOf source part
  fold : fold? source tree = fold? source part
  single : isSingle source tree = isSingle source part

namespace Echoes

variable {part : Tree}

theorem atom (kind : tree.name = "atom") (only : tree.content = [part]) :
    Echoes source tree part := by
  constructor
  · rw [bodyOf_eq, bodyParts.eq_def, kind, only]
    rfl
  · rw [fold?_eq, foldParts.eq_def, kind, only]
    simp
  · rw [isSingle_eq, singleParts.eq_def, kind, only]
    simp

theorem group (kind : tree.name = "group") (found : tree.child? "alternation" = some part) :
    Echoes source tree part := by
  rw [Tree.child?] at found
  constructor
  · rw [bodyOf_eq, bodyParts.eq_def, kind]
    simp [found]
  · rw [fold?_eq, foldParts.eq_def, kind]
    simp [found]
  · rw [isSingle_eq, singleParts.eq_def, kind]
    simp [found]

/-- An atom without a quantifier stands for itself. -/
theorem quantified (kind : tree.name = "quantified") (found : tree.child? "atom" = some part)
    (plain : tree.child? "quantifier" = none) : Echoes source tree part := by
  rw [Tree.child?] at found
  constructor
  · rw [bodyOf_eq, bodyParts.eq_def, kind]
    simp only [part?_map, found, Option.map_some, quantifiedOf, plain, Option.getD_some]
    exact bind_pure _
  · rw [fold?_eq, foldParts.eq_def, kind]
    simp [found, plain]
  · rw [isSingle_eq, singleParts.eq_def, kind]
    simp [found, plain]

/-- An operand without others stands for itself. -/
theorem difference (kind : tree.name = "difference") (only : tree.children "quantified" = [part]) :
    Echoes source tree part := by
  rw [Tree.children] at only
  constructor
  · rw [bodyOf_eq, bodyParts.eq_def, kind]
    simp [only, differenceOf]
  · rw [fold?_eq, foldParts.eq_def, kind]
    simp [only, differenceAll]
  · rw [isSingle_eq, singleParts.eq_def, kind]
    simp [only]

end Echoes

/-- What a tree of a body stands for. -/
structure Meaning where
  node : Node
  /-- The set of the characters that it matches, if it is built from literals alone. -/
  set? : Option CharSet
  /-- Whether it is known to match one character if the productions it mentions do. -/
  single : Bool

/-- A tree stands for a meaning. -/
structure Denotes (source : List Char) (tree : Tree) (meaning : Meaning) : Prop where
  body : bodyOf source tree = .ok meaning.node
  fold : fold? source tree = meaning.set?
  single : isSingle source tree = meaning.single

/-- The trees of a name among some stand for given meanings. -/
def Parts (name : String) (source : List Char) (trees : List Tree) (meanings : List Meaning) :
    Prop :=
  List.Forall₂ (Denotes source) (trees.filter fun tree => tree.name = name) meanings

/-- The names in angle brackets with what they stand for. -/
def specials : List (String × Node) :=
  [("empty", .empty), ("start-of-line", .startOfLine), ("end-of-input", .endOfInput)]

namespace Meaning

/-- The meaning of a set of characters. -/
def ofSet (set : CharSet) : Meaning := ⟨.chars set, some set, true⟩

/-- The meaning of an expression that is no set of characters. -/
def ofNode (node : Node) : Meaning := ⟨node, none, false⟩

/-- A literal text, which is a set if it is one character. -/
def literal (run : List Char) : Meaning where
  node := .literal (String.ofList run)
  set? := match run with
    | [char] => some (.single char.val)
    | _ => none
  single := run.length = 1

/-- A call of a production without arguments. -/
def reference (name : List Char) : Meaning := ⟨.call (String.ofList name), none, true⟩

/-- The first operand without the others. -/
def difference (first : Meaning) (excluded : List Meaning) : Meaning where
  node := match excluded with
    | [] => first.node
    | _ =>
        match differenceAll (first.set? :: excluded.map set?) with
        | some set => .chars set
        | none => .sequence (excluded.map (fun operand => .notAhead operand.node) ++ [first.node])
  set? := differenceAll (first.set? :: excluded.map set?)
  single := first.single

/-- Parts one after the other. -/
def sequence : List Meaning → Meaning
  | [only] => only
  | parts => .ofNode (.sequence (parts.map node))

/-- The first part that matches. -/
def alternation (parts : List Meaning) : Meaning where
  node := soleOr .first (parts.map node)
  set? := unionAll (parts.map set?)
  single := (parts.map single).all id

end Meaning

namespace Parts

variable {meanings : List Meaning}

private theorem map_bodyOf (parts : Parts name source trees meanings) :
    (trees.filter fun tree => tree.name = name).map (bodyOf source) =
      meanings.map fun meaning => .ok meaning.node := by
  unfold Parts at parts
  generalize (trees.filter fun tree => tree.name = name) = named at parts
  induction parts with
  | nil => rfl
  | cons denotes _ induction => rw [List.map_cons, List.map_cons, denotes.body, induction]

private theorem map_fold? (parts : Parts name source trees meanings) :
    (trees.filter fun tree => tree.name = name).map (fold? source) =
      meanings.map Meaning.set? := by
  unfold Parts at parts
  generalize (trees.filter fun tree => tree.name = name) = named at parts
  induction parts with
  | nil => rfl
  | cons denotes _ induction => rw [List.map_cons, List.map_cons, denotes.fold, induction]

private theorem map_isSingle (parts : Parts name source trees meanings) :
    (trees.filter fun tree => tree.name = name).map (isSingle source) =
      meanings.map Meaning.single := by
  unfold Parts at parts
  generalize (trees.filter fun tree => tree.name = name) = named at parts
  induction parts with
  | nil => rfl
  | cons denotes _ induction => rw [List.map_cons, List.map_cons, denotes.single, induction]

end Parts

private theorem mapM_ok {α β : Type} {ε : Type} (convert : α → β) (items : List α) :
    (items.map fun item => (Except.ok (convert item) : Except ε β)).mapM id =
      .ok (items.map convert) := by
  induction items with
  | nil => rfl
  | cons item items induction =>
      rw [List.map_cons, List.mapM_cons, induction]
      rfl

theorem bind_eq_ok_iff {α β ε : Type} {result : Except ε α} {next : α → Except ε β} {value : β} :
    result >>= next = .ok value ↔ ∃ middle, result = .ok middle ∧ next middle = .ok value := by
  cases result with
  | ok middle => simp [bind, Except.bind]
  | error error => simp [bind, Except.bind]

theorem map_eq_ok_iff {α β ε : Type} {result : Except ε α} {convert : α → β} {value : β} :
    result.map convert = .ok value ↔ ∃ middle, result = .ok middle ∧ convert middle = value := by
  cases result <;> simp [Except.map]

theorem toOption_eq_none_iff {α ε : Type} {result : Except ε α} :
    result.toOption = none ↔ ∃ error, result = .error error := by
  cases result <;> simp [Except.toOption]

theorem toOption_eq_some_iff {α ε : Type} {result : Except ε α} {value : α} :
    result.toOption = some value ↔ result = .ok value := by
  cases result <;> simp [Except.toOption]

theorem isSome_map {α β ε : Type} {result : Except ε α} {convert : α → β} :
    (result.map convert).toOption.isSome = result.toOption.isSome := by
  cases result <;> rfl

theorem isSome_bind_pure {α β ε : Type} {result : Except ε α} {convert : α → β} :
    (result >>= fun value => pure (convert value)).toOption.isSome = result.toOption.isSome := by
  cases result <;> rfl

theorem isSome_mapM {α β ε : Type} {convert : α → Except ε β} {items : List α} :
    (items.mapM convert).toOption.isSome =
      items.all fun item => (convert item).toOption.isSome := by
  induction items with
  | nil => rfl
  | cons item items induction =>
      rw [List.mapM_cons, List.all_cons, ← induction]
      cases convert item with
      | error error => rfl
      | ok value => exact isSome_bind_pure

theorem mapM_eq_ok_iff {α β ε : Type} {convert : α → Except ε β} {items : List α}
    {results : List β} :
    items.mapM convert = .ok results ↔
      List.Forall₂ (fun item result => convert item = .ok result) items results := by
  induction items generalizing results with
  | nil => cases results <;> simp [pure, Except.pure]
  | cons item items induction =>
      rw [List.mapM_cons, List.forall₂_cons_left_iff, bind_eq_ok_iff]
      simp only [bind_eq_ok_iff, induction, pure, Except.pure, Except.ok.injEq]
      exact ⟨fun ⟨result, head, others, tail, same⟩ => ⟨result, others, head, tail, same.symm⟩,
        fun ⟨result, others, head, tail, same⟩ => ⟨result, head, others, tail, same.symm⟩⟩

private theorem guarded_ok (first : Node) (excluded : List Meaning) :
    guarded (.ok first) (excluded.map fun operand => .ok operand.node) =
      .ok (.sequence (excluded.map (fun operand => .notAhead operand.node) ++ [first])) := by
  have guards : (excluded.map fun operand => (.ok operand.node : Except CompileError Node)).mapM
      (fun operand => operand.map Node.notAhead) =
        .ok (excluded.map fun operand => .notAhead operand.node) := by
    induction excluded with
    | nil => rfl
    | cons operand excluded induction =>
        rw [List.map_cons, List.mapM_cons, induction]
        rfl
  rw [guarded, guards]
  rfl

namespace Denotes

variable {meaning : Meaning} {meanings : List Meaning}

theorem alternation (kind : tree.name = "alternation")
    (parts : Parts "sequence" source tree.content meanings) :
    Denotes source tree (.alternation meanings) where
  body := by
    rw [bodyOf_eq, bodyParts.eq_def, kind]
    simp only [partsOf_map, parts.map_bodyOf, mapM_ok]
    rfl
  fold := by
    rw [fold?_eq, foldParts.eq_def, kind]
    simp only [partsOf_map, parts.map_fold?]
    rfl
  single := by
    rw [isSingle_eq, singleParts.eq_def, kind]
    simp only [partsOf_map, parts.map_isSingle]
    rfl

theorem sequence (kind : tree.name = "sequence")
    (parts : Parts "difference" source tree.content meanings) :
    Denotes source tree (.sequence meanings) where
  body := by
    rw [bodyOf_eq, bodyParts.eq_def, kind]
    simp only [partsOf_map, parts.map_bodyOf, mapM_ok]
    rcases meanings with _ | ⟨first, _ | ⟨second, more⟩⟩ <;> rfl
  fold := by
    rw [fold?_eq, foldParts.eq_def, kind]
    simp only [partsOf_map, parts.map_fold?]
    rcases meanings with _ | ⟨first, _ | ⟨second, more⟩⟩ <;> rfl
  single := by
    rw [isSingle_eq, singleParts.eq_def, kind]
    simp only [partsOf_map, parts.map_isSingle]
    rcases meanings with _ | ⟨first, _ | ⟨second, more⟩⟩ <;> rfl

theorem difference (kind : tree.name = "difference")
    (parts : Parts "quantified" source tree.content (meaning :: meanings)) :
    Denotes source tree (.difference meaning meanings) := by
  have fold : fold? source tree = (Meaning.difference meaning meanings).set? := by
    rw [fold?_eq, foldParts.eq_def, kind]
    simp only [partsOf_map, parts.map_fold?]
    rfl
  refine ⟨?_, fold, ?_⟩
  · rw [bodyOf_eq, bodyParts.eq_def, kind]
    simp only [partsOf_map, parts.map_bodyOf]
    cases meanings with
    | nil => rfl
    | cons second more =>
        simp only [List.map_cons, differenceOf, fold]
        cases folded : (Meaning.difference meaning (second :: more)).set? with
        | some set => simp_all [Meaning.difference]
        | none =>
            have guarded := guarded_ok meaning.node (second :: more)
            simp_all [Meaning.difference]
  · rw [isSingle_eq, singleParts.eq_def, kind]
    simp only [partsOf_map, parts.map_isSingle]
    rfl

end Denotes

/-! ### Quantified atoms -/

/-- A mark for repetitions. -/
inductive Mark where
  | optional | zeroOrMore | oneOrMore

namespace Mark

/-- How a mark is written. -/
def char : Mark → Char
  | optional => '?'
  | zeroOrMore => '*'
  | oneOrMore => '+'

/-- The expression with a mark. -/
def repeated : Mark → Node → Node
  | optional => .optional
  | zeroOrMore => .zeroOrMore
  | oneOrMore => .oneOrMore

end Mark

/-- Repetitions of a part. -/
def Meaning.marked (mark : Mark) (inside : Meaning) : Meaning :=
  .ofNode (mark.repeated inside.node)

namespace Denotes

variable {meaning : Meaning}

private theorem of_echoes {part : Tree} (echoes : Echoes source tree part)
    (inside : Denotes source part meaning) : Denotes source tree meaning where
  body := echoes.body.trans inside.body
  fold := echoes.fold.trans inside.fold
  single := echoes.single.trans inside.single

theorem quantified {atom : Tree} (kind : tree.name = "quantified")
    (found : tree.child? "atom" = some atom) (plain : tree.child? "quantifier" = none)
    (inside : Denotes source atom meaning) : Denotes source tree meaning :=
  .of_echoes (.quantified kind found plain) inside

theorem marked {atom quantifier : Tree} (mark : Mark) (kind : tree.name = "quantified")
    (found : tree.child? "atom" = some atom)
    (behind : tree.child? "quantifier" = some quantifier)
    (written : quantifier.text source = String.ofList [mark.char])
    (inside : Denotes source atom meaning) : Denotes source tree (.marked mark meaning) where
  body := by
    rw [Tree.child?] at found
    rw [bodyOf_eq, bodyParts.eq_def, kind]
    simp only [part?_map, found, Option.map_some, inside.body, quantifiedOf, behind, written]
    cases mark <;> rfl
  fold := by
    rw [fold?_eq, foldParts.eq_def, kind]
    simp [behind, Meaning.marked, Meaning.ofNode]
  single := by
    rw [isSingle_eq, singleParts.eq_def, kind]
    simp [behind, Meaning.marked, Meaning.ofNode]

theorem atom {part : Tree} (kind : tree.name = "atom") (only : tree.content = [part])
    (inside : Denotes source part meaning) : Denotes source tree meaning :=
  .of_echoes (.atom kind only) inside

theorem group {body : Tree} (kind : tree.name = "group")
    (found : tree.child? "alternation" = some body) (inside : Denotes source body meaning) :
    Denotes source tree meaning :=
  .of_echoes (.group kind found) inside

theorem lookahead {body : Tree} (kind : tree.name = "lookaround")
    (found : tree.child? "alternation" = some body)
    (ahead : tree.child? "lookbehind-positive" = none) (inside : Denotes source body meaning) :
    Denotes source tree
      (.ofNode (.lookahead meaning.node (tree.child? "lookahead-negative").isNone)) where
  body := by
    rw [bodyOf_eq, bodyParts.eq_def, kind]
    simp only [part?_map, lookaroundOf, Tree.required, ahead, found]
    rw [Tree.child?] at found
    simp only [found, Option.map_some, inside.body]
    rfl
  fold := by
    rw [fold?_eq, foldParts.eq_def, kind]
    rfl
  single := by
    have fold : fold? source tree = none := by
      rw [fold?_eq, foldParts.eq_def, kind]
      rfl
    rw [isSingle_eq, singleParts.eq_def, kind]
    simp [fold, Meaning.ofNode]

/-! ### Atoms without parts -/

theorem special {name : String} {node : Node} (kind : tree.name = "special")
    (written : tree.text source = String.ofList ('<' :: (name.toList ++ ['>'])))
    (known : (name, node) ∈ specials) : Denotes source tree (.ofNode node) := by
  have fold : fold? source tree = none := by
    rw [fold?_eq, foldParts.eq_def, kind]
    rfl
  refine ⟨?_, fold, ?_⟩
  · rw [bodyOf_eq, bodyParts.eq_def, kind]
    simp only [specialOf, written, String.toList_ofList, quotedContent, List.tail_cons,
      List.dropLast_concat, String.ofList_toList]
    simp only [specials, List.mem_cons, Prod.mk.injEq, List.not_mem_nil, or_false] at known
    rcases known with ⟨rfl, rfl⟩ | ⟨rfl, rfl⟩ | ⟨rfl, rfl⟩ <;> rfl
  · rw [isSingle_eq, singleParts.eq_def, kind]
    simp [fold, Meaning.ofNode]

theorem hexOf_ok {digits : List Char} {code : Nat}
    (written : tree.text source = String.ofList ('x' :: digits))
    (value : Numeral.natural? 16 digits = some code)
    (valid : code ≤ CharSet.maxCodePoint.toNat) :
    hexOf source tree = .ok (UInt32.ofNat code) := by
  simp [hexOf, written, value, valid]

theorem hexChar {code : UInt32} (kind : tree.name = "hex-char")
    (reads : hexOf source tree = .ok code) : Denotes source tree (.ofSet (.single code)) := by
  have fold : fold? source tree = some (.single code) := by
    rw [fold?_eq, foldParts.eq_def, kind]
    simp [reads, Except.toOption]
  refine ⟨?_, fold, ?_⟩
  · rw [bodyOf_eq, bodyParts.eq_def, kind]
    simp [reads, Except.map, Meaning.ofSet]
  · rw [isSingle_eq, singleParts.eq_def, kind]
    simp [fold, Meaning.ofSet]

theorem codePointRange {set : CharSet} (kind : tree.name = "code-point-range")
    (reads : rangeOf source tree = .ok set) : Denotes source tree (.ofSet set) := by
  have fold : fold? source tree = some set := by
    rw [fold?_eq, foldParts.eq_def, kind]
    simp [reads, Except.toOption]
  refine ⟨?_, fold, ?_⟩
  · rw [bodyOf_eq, bodyParts.eq_def, kind]
    simp [reads, Except.map, Meaning.ofSet]
  · rw [isSingle_eq, singleParts.eq_def, kind]
    simp [fold, Meaning.ofSet]

theorem quotedString {quote : Char} {run : List Char} (kind : tree.name = "quoted-string")
    (written : tree.text source = String.ofList (quote :: (run ++ [quote]))) :
    Denotes source tree (.literal run) := by
  have fold : fold? source tree = (Meaning.literal run).set? := by
    rw [fold?_eq, foldParts.eq_def, kind]
    simp only [written, String.toList_ofList, quotedContent, List.tail_cons, List.dropLast_concat]
    rfl
  refine ⟨?_, fold, ?_⟩
  · rw [bodyOf_eq, bodyParts.eq_def, kind]
    simp only [written, String.toList_ofList, quotedContent, List.tail_cons, List.dropLast_concat]
    rfl
  · rw [isSingle_eq, singleParts.eq_def, kind]
    rcases run with _ | ⟨first, _ | ⟨second, more⟩⟩ <;> simp [fold, Meaning.literal]

theorem anyChar (kind : tree.name = "any-char") : Denotes source tree (.ofSet .any) := by
  have fold : fold? source tree = some .any := by
    rw [fold?_eq, foldParts.eq_def, kind]
    rfl
  refine ⟨?_, fold, ?_⟩
  · rw [bodyOf_eq, bodyParts.eq_def, kind]
    rfl
  · rw [isSingle_eq, singleParts.eq_def, kind]
    simp [fold, Meaning.ofSet]

theorem reference {label : Tree} {name : List Char} (kind : tree.name = "reference")
    (found : tree.child? "production-name" = some label)
    (bare : tree.child? "parameter-list" = none)
    (written : label.text source = String.ofList name) :
    Denotes source tree (.reference name) where
  body := by
    rw [bodyOf_eq, bodyParts.eq_def, kind]
    simp only [referenceOf, Tree.required, found, bare]
    change Except.ok (Node.call (label.text source)) = _
    rw [written]
    rfl
  fold := by
    rw [fold?_eq, foldParts.eq_def, kind]
    rfl
  single := by
    rw [isSingle_eq, singleParts.eq_def, kind]
    simp [bare, Meaning.reference]

theorem call {label list : Tree} {name : List Char} {arguments : List Binding}
    (kind : tree.name = "reference") (found : tree.child? "production-name" = some label)
    (listed : tree.child? "parameter-list" = some list)
    (written : label.text source = String.ofList name)
    (computes : (list.children "parameter").mapM (argumentOf source) = .ok arguments) :
    Denotes source tree (.ofNode (.reference (String.ofList name) arguments)) where
  body := by
    rw [bodyOf_eq, bodyParts.eq_def, kind]
    simp only [referenceOf, Tree.required, found, listed]
    rw [computes, ← written]
    rfl
  fold := by
    rw [fold?_eq, foldParts.eq_def, kind]
    rfl
  single := by
    rw [isSingle_eq, singleParts.eq_def, kind]
    simp [listed, Meaning.ofNode]

/-! ### Ends of ranges -/

theorem rangeBoundOf_hex {hex : Tree} {code : UInt32} (found : tree.child? "hex-char" = some hex)
    (reads : hexOf source hex = .ok code) : rangeBoundOf source tree = .ok code := by
  simp [rangeBoundOf, found, reads]

theorem rangeBoundOf_quoted {quoted : Tree} {quote char : Char}
    (plain : tree.child? "hex-char" = none) (found : tree.child? "quoted-char" = some quoted)
    (written : quoted.text source = String.ofList [quote, char, quote]) :
    rangeBoundOf source tree = .ok char.val := by
  simp only [rangeBoundOf, plain, Tree.required, found, bind, Except.bind, written,
    String.toList_ofList]
  rfl

theorem rangeOf_ok {left right : Tree} {first last : UInt32}
    (bounds : tree.children "range-bound" = [left, right])
    (readsFirst : rangeBoundOf source left = .ok first)
    (readsLast : rangeBoundOf source right = .ok last) :
    rangeOf source tree = .ok (.ofRanges [⟨first, last⟩]) := by
  simp only [rangeOf, bounds, readsFirst, readsLast]
  rfl

end Denotes

end Bnf

end ParametricGrammar
