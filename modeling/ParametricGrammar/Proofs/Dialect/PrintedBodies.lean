import ParametricGrammar.Proofs.Dialect.AlikeBodies
/-!
# Printed bodies

The text of a compiled expression is read as a body, and its tree means the expression. Printing
drops the borders of rows in rows and of choices in choices, so a text belongs to any expression
that is evaluated and read back like the row of its parts, or like the choice of its rows.
-/

namespace ParametricGrammar

namespace Bnf

namespace Dialect

variable {node : Node} {chars : List Char}

/-- A text is read as a production, at some depth, and its tree means an expression. -/
def Rendered (kind : String) (ends : List Char → Prop) (node : Node) (chars : List Char) : Prop :=
  ∃ nesting, Reads kind ends nesting chars (Means node)

/-- A text is read as alternatives, at some depth, and its tree means an expression. -/
def RenderedBody (node : Node) (chars : List Char) : Prop :=
  ∃ nesting, ReadsBody nesting chars (Means node)

/-- An expression with a text for it. -/
structure Rendering where
  node : Node
  chars : List Char

/-- The text with what its tree means. -/
def Rendering.item (rendering : Rendering) : Item := ⟨rendering.chars, Means rendering.node⟩

private theorem forall₂_means {kind : String} {source : List Char} {tree : Tree}
    (renderings : List Rendering)
    (stood : Stood kind (renderings.map Rendering.item) source tree.content) :
    List.Forall₂ (fun part node => Means node source part) (tree.children kind)
      (renderings.map Rendering.node) := by
  unfold Stood at stood
  rw [List.forall₂_map_right_iff] at stood ⊢
  exact stood

namespace Rendered

private theorem quantified (atom : Rendered "atom" EndsAtom node chars) :
    Rendered "quantified" Apart node chars := by
  obtain ⟨nesting, reads⟩ := atom
  exact ⟨_, reads.plain.imp fun _ _ named ⟨_, found, means, bare⟩ =>
    .plain named found bare means⟩

private theorem difference (part : Rendered "quantified" Apart node chars) :
    Rendered "difference" EndsDifference node chars := by
  obtain ⟨nesting, reads⟩ := part
  let operand := Rendering.item ⟨node, chars⟩
  have single : Reads "difference" EndsDifference (nesting + 1) (operand.chars ++ written _ [])
      fun source tree => Stood "quantified" [operand] source tree.content :=
    Reads.difference (List.forall_mem_singleton.mpr reads)
  exact ⟨_, (single.imp fun _ _ named stood =>
    .difference named (forall₂_means [⟨node, chars⟩] stood)).of_eq (List.append_nil chars).symm⟩

private theorem group (body : RenderedBody node chars) :
    Rendered "atom" EndsAtom node ('(' :: ' ' :: (chars ++ [' ', ')'])) := by
  obtain ⟨nesting, reads⟩ := body
  exact ⟨_, (Reads.group reads).imp fun _ _ named ⟨_, only, kind, _, found, means⟩ =>
    .atom named only (.group kind found means)⟩

private theorem marked (atom : Rendered "atom" EndsAtom node chars) (mark : Mark) :
    Rendered "quantified" Apart (mark.repeated node) (chars ++ [mark.char]) := by
  obtain ⟨nesting, reads⟩ := atom
  exact ⟨_, (reads.marked mark).imp fun _ _ named ⟨_, _, found, means, behind, _, written⟩ =>
    .marked named behind found mark written means⟩

private theorem counted {count : Bound} (atom : Rendered "atom" EndsAtom node chars)
    (valid : count.isCount = true) :
    Rendered "quantified" Apart (.repeated node count (some count))
      (chars ++ countChars (Bound.total count)) := by
  obtain ⟨nesting, reads⟩ := atom
  exact ⟨_, (reads.quantified (fun _ => takes_count _) fun _ => .inr (.inr rfl)).imp
    fun _ _ named ⟨_, _, found, means, behind, _, written, _, counts, stands⟩ =>
      .counted named behind found written counts stands (bound?_total valid) means⟩

private theorem lookahead (body : RenderedBody node chars) (positive : Bool) :
    Rendered "atom" EndsAtom (.lookahead node positive)
      ('[' :: ' ' :: ((Look.ahead positive).word ++ ' ' :: (chars ++ [' ', ']']))) := by
  obtain ⟨nesting, reads⟩ := body
  exact ⟨_, (Reads.lookaround _ reads).imp
    fun _ _ named ⟨_, only, kind, _, found, means, looks⟩ =>
      .atom named only (.lookahead kind found looks means)⟩

private theorem lookbehind (body : RenderedBody node chars) :
    Rendered "atom" EndsAtom (.lookbehind node)
      ('[' :: ' ' :: (Look.behind.word ++ ' ' :: (chars ++ [' ', ']']))) := by
  obtain ⟨nesting, reads⟩ := body
  exact ⟨_, (Reads.lookaround _ reads).imp
    fun _ _ named ⟨_, only, kind, _, found, means, looks⟩ =>
      .atom named only (.lookbehind kind found looks means)⟩

private theorem reference {label : List Char} {arguments : List Binding}
    (valid : isName label = true) (apart : isHexLike label = false)
    (all : ∀ argument ∈ arguments, argument.isArgument = true) :
    Rendered "atom" EndsAtom (.reference (String.ofList label) arguments)
      (label ++ optionalChars (parameterList (arguments.map argumentItem))) := by
  have list : ReadsList (parameterList (arguments.map argumentItem)) :=
    readsList_parameterList (List.forall_mem_map.mpr fun _ member =>
      reads_argumentItem (all _ member))
  exact ⟨_, (Reads.reference valid apart list).imp
    fun _ _ named ⟨_, only, kind, ⟨_, found, written⟩, list⟩ =>
      .atom named only (.reference kind found written list)⟩

/-- What a phrase denotes is what its tree means. -/
theorem of_phrase {name : String} {ends : List Char → Prop} (phrase : Phrase name ends)
    (readable : phrase.meaning.node.isReadable = true)
    (sets : ∀ set ∈ phrase.meaning.set?,
      CharSet.Canonical set.ranges ∧ Alike phrase.meaning.node (.chars set))
    (single : phrase.meaning.single = phrase.meaning.node.isOneChar) :
    Rendered name ends phrase.meaning.node phrase.chars :=
  ⟨_, phrase.reads.imp fun _ _ _ denotes => .of_denotes denotes readable sets single⟩

end Rendered

/-! ### Rows and choices -/

/-- How texts are put together: as parts of a row, or as rows of a choice. -/
inductive Level where
  | row | choice

namespace Level

/-- The production that a part is read with. -/
def kind : Level → String
  | row => "difference"
  | choice => "sequence"

/-- What ends a part. -/
def ends : Level → List Char → Prop
  | row => EndsDifference
  | choice => EndsSequence

/-- What stands between two parts. -/
def separator : Level → List Char
  | row => [' ']
  | choice => [' ', '|', ' ']

/-- The expression of the parts together. -/
def combine : Level → List Node → Node
  | row => .sequence
  | choice => .first

variable {level : Level} {lefts rights : List Node}

private theorem isReadable_combine (level : Level) (nodes : List Node) :
    (level.combine nodes).isReadable = nodes.all Node.isReadable := by
  rw [← Node.areReadable_eq]
  cases level <;> rfl

/-- Whether a row or a choice passes for one character depends on whether its parts do. -/
theorem isOneChar_combine (same : lefts.map Node.isOneChar = rights.map Node.isOneChar) :
    (level.combine lefts).isOneChar = (level.combine rights).isOneChar := by
  cases level with
  | row =>
      rcases lefts with _ | ⟨left, _ | ⟨next, lefts⟩⟩ <;>
        rcases rights with _ | ⟨right, _ | ⟨other, rights⟩⟩ <;>
          simp_all [combine, Node.isOneChar, Node.isOneCharAlone]
  | choice =>
      have all : lefts.all Node.isOneChar = rights.all Node.isOneChar := by
        simpa [List.all_map, Function.comp_def] using congrArg (List.all · id) same
      simpa [combine, Node.isOneChar, Node.areOneChar_eq] using all

private theorem likewise_combine (all : List.Forall₂ Likewise lefts rights) :
    Likewise (level.combine lefts) (level.combine rights) where
  alike := by
    have each := all.imp fun _ _ likewise => likewise.alike
    cases level
    · exact .sequence each
    · exact .first each
  readable := by
    rw [isReadable_combine, isReadable_combine]
    exact all_eq_of_forall₂ all fun _ _ likewise => likewise.readable
  oneChar :=
    isOneChar_combine (map_eq_of_forall₂ all fun _ _ likewise => likewise.oneChar)

private theorem likewise_singleton (node : Node) : Likewise (level.combine [node]) node where
  alike := by
    cases level
    · exact .sequence_singleton node
    · exact .first_singleton node
  readable := by rw [isReadable_combine, List.all_cons, List.all_nil, Bool.and_true]
  oneChar := by
    cases level
    · rfl
    · exact Bool.and_true _

/-- Rows in a row, and choices in a choice, are one row or choice of all their parts. -/
theorem likewise_flatten {rows : List (List Node)} (full : ∀ row ∈ rows, row ≠ []) :
    Likewise (level.combine (rows.map level.combine)) (level.combine rows.flatten) where
  alike := by
    cases level
    · exact .sequence_flatten rows
    · exact .first_flatten rows
  readable := by
    simp [isReadable_combine, List.all_map, List.all_flatten, Function.comp_def]
  oneChar := by
    cases level with
    | row =>
        rcases rows with _ | ⟨first, _ | ⟨second, rest⟩⟩
        · rfl
        · simp [combine, Node.isOneChar, Node.isOneCharAlone]
        · have two : 2 ≤ (first :: second :: rest).flatten.length := by
            have some := List.length_pos_iff.mpr (full first List.mem_cons_self)
            have more := List.length_pos_iff.mpr (full second (.tail _ List.mem_cons_self))
            simp only [List.flatten_cons, List.length_append]
            omega
          exact (Node.isOneChar_of_two (by simp)).trans (Node.isOneChar_of_two two).symm
    | choice =>
        simp [combine, Node.isOneChar, Node.areOneChar_eq, List.all_map, List.all_flatten,
          Function.comp_def]

end Level

theorem toList_bracketed (text : String) :
    ("( " ++ text ++ " )").toList = '(' :: ' ' :: (text.toList ++ [' ', ')']) := by
  simp

/-- The parts of a text for an expression at a level. -/
structure Level.Splits (level : Level) (parts : List Rendering) (node : Node) (chars : List Char) :
    Prop where
  some : parts ≠ []
  written : chars = together level.separator (parts.map Rendering.chars)
  each : ∀ part ∈ parts, Rendered level.kind level.ends part.node part.chars
  likewise : Likewise node (level.combine (parts.map Rendering.node))

private theorem Level.Splits.eq_written {level : Level} {first : Rendering} {more : List Rendering}
    (splits : level.Splits (first :: more) node chars) :
    chars = first.item.chars ++ Dialect.written level.separator (more.map Rendering.item) := by
  rw [splits.written]
  simp [together, Dialect.written, Rendering.item, List.flatMap_map]

/-- A text has parts for an expression at a level. -/
def Level.Renders (level : Level) (node : Node) (chars : List Char) : Prop :=
  ∃ parts, level.Splits parts node chars

namespace Level.Renders

variable {level : Level}

/-- A part is a text of one part. -/
theorem of_part (part : Rendered level.kind level.ends node chars) : level.Renders node chars :=
  ⟨[⟨node, chars⟩], by simp, by simp [together], by simpa using part,
    (likewise_singleton node).symm⟩

/-- The parts of a text are read at one depth. -/
theorem exists_reads {parts : List Rendering} (splits : level.Splits parts node chars) :
    ∃ nesting, ∀ item ∈ parts.map Rendering.item,
      Reads level.kind level.ends nesting item.chars item.stands := by
  refine exists_nesting (fun le reads => reads.mono le) fun item member => ?_
  obtain ⟨part, among, rfl⟩ := List.mem_map.mp member
  exact splits.each part among

private theorem rendered (renders : row.Renders node chars) :
    Rendered "sequence" EndsSequence node chars := by
  obtain ⟨parts, splits⟩ := renders
  obtain ⟨nesting, reads⟩ := exists_reads splits
  obtain ⟨first, more, rfl⟩ := List.exists_cons_of_ne_nil splits.some
  rw [splits.eq_written]
  exact ⟨_, (Reads.sequence reads).imp fun _ _ named stood =>
    (Means.sequence named (forall₂_means (first :: more) stood)).of_likewise splits.likewise⟩

/-- An atom is a part of a row, and a row of a choice. -/
theorem of_atom (atom : Rendered "atom" EndsAtom node chars) : level.Renders node chars := by
  have part : row.Renders node chars := .of_part atom.quantified.difference
  cases level with
  | row => exact part
  | choice => exact .of_part part.rendered

private theorem of_likewise {other : Node} (renders : level.Renders node chars)
    (likewise : Likewise other node) : level.Renders other chars := by
  obtain ⟨parts, splits⟩ := renders
  exact ⟨parts, { splits with likewise := likewise.trans splits.likewise }⟩

/-- Texts of parts are put together to a text of all their parts. -/
theorem combine {nodes : List Node} {texts : List (List Char)} (some : nodes ≠ [])
    (each : List.Forall₂ level.Renders nodes texts) :
    level.Renders (level.combine nodes) (together level.separator texts) := by
  obtain ⟨rows, splits, written⟩ : ∃ rows : List (List Rendering),
      List.Forall₂ (fun node parts => parts ≠ [] ∧
        (∀ part ∈ parts, Rendered level.kind level.ends part.node part.chars) ∧
          Likewise node (level.combine (parts.map Rendering.node))) nodes rows ∧
      List.Forall₂ (fun chars parts =>
        chars = together level.separator (parts.map Rendering.chars)) texts rows :=
    exists_of_forall₂ (each.imp fun _ _ ⟨parts, splits⟩ =>
      ⟨parts, ⟨splits.some, splits.each, splits.likewise⟩, splits.written⟩)
  have full : ∀ row ∈ rows, row ≠ [] := forall_of_forall₂ splits fun _ _ _ holds => holds.1
  have all : ∀ row ∈ rows, ∀ part ∈ row, Rendered level.kind level.ends part.node part.chars :=
    forall_of_forall₂ splits fun _ _ _ holds => holds.2.1
  refine ⟨rows.flatten, ?_, ?_, ?_, ?_⟩
  · obtain ⟨row, more, rfl⟩ : ∃ row more, rows = row :: more := by
      refine List.exists_cons_of_ne_nil fun none => some ?_
      rw [none] at splits
      exact List.forall₂_nil_right_iff.mp splits
    simpa using fun none => absurd none (full row List.mem_cons_self)
  · have same : texts = (rows.map (List.map Rendering.chars)).map (together level.separator) := by
      rw [List.map_map, ← List.forall₂_eq_eq_eq, List.forall₂_map_right_iff]
      exact written
    rw [same, together_flatten (by simpa using full), List.map_flatten]
  · simpa [List.mem_flatten] using fun part row member => all row member part
  · have rowwise : Likewise (level.combine nodes)
        (level.combine ((rows.map (List.map Rendering.node)).map level.combine)) := by
      refine likewise_combine ?_
      rw [List.map_map, List.forall₂_map_right_iff]
      exact splits.imp fun _ _ holds => holds.2.2
    rw [List.map_flatten]
    exact rowwise.trans (likewise_flatten (by simpa using full))

theorem renderedBody (renders : choice.Renders node chars) : RenderedBody node chars := by
  obtain ⟨parts, splits⟩ := renders
  obtain ⟨nesting, reads⟩ := exists_reads splits
  obtain ⟨first, more, rfl⟩ := List.exists_cons_of_ne_nil splits.some
  rw [splits.eq_written]
  exact ⟨_, (ReadsBody.alternation reads).imp fun _ _ named stood =>
    (Means.alternation named (forall₂_means (first :: more) stood)).of_likewise splits.likewise⟩

end Level.Renders

/-! ### Sets of characters -/

private theorem isHexDigit_of_digit? {digit : Char}
    (spells : (Numeral.digit? digit).isSome = true) :
    isHexDigit digit = true := by
  unfold Numeral.digit? at spells
  split at spells
  · rename_i decimal
    have digits : digit.isDigit = true := by simpa [Char.isDigit, Char.le_def] using decimal
    simp [isHexDigit, digits]
  · split at spells
    · simp_all [isHexDigit]
    · split at spells
      · simp_all [isHexDigit]
      · cases spells

/-- The digits of a code point are read as the code point. -/
theorem exists_digits (code : UInt32) : ∃ digits, (codePointText code).toList = 'x' :: digits ∧
    digits.all isHexDigit = true ∧ Numeral.natural? 16 digits = some code.toNat := by
  let digits := (Nat.toDigits 16 code.toNat).map Char.toUpper
  let zeros := List.replicate (2 - digits.length) '0'
  have some : zeros ++ digits ≠ [] := by simp [digits, Nat.toDigits_ne_nil]
  have value : Numeral.extend? 16 0 (zeros ++ digits) = .some code.toNat := by
    rw [Numeral.extend?_replicate_zero (by decide), Numeral.extend?_map_toDigits (by decide)]
    exact fun _ => Numeral.digit?_toUpper
  refine ⟨zeros ++ digits, ?_, ?_, ?_⟩
  · rw [codePointText, String.toList_append, Numeral.upperHex, Numeral.zeroPadded,
      String.toList_ofList (l := List.replicate _ '0' ++ _)]
    rfl
  · rw [List.all_eq_true]
    exact fun digit member => isHexDigit_of_digit? (Numeral.isSome_digit?_of_extend? value member)
  · rw [Numeral.natural?_of_ne_nil some, value]

/-- A set that a phrase denotes is what its tree means, if there are characters in it. -/
theorem Rendered.of_set (phrase : Phrase "atom" EndsAtom) {set : CharSet}
    (denotes : phrase.meaning = .ofSet set) (canonical : CharSet.Canonical set.ranges)
    (some : set.ranges ≠ []) : Rendered "atom" EndsAtom (.chars set) phrase.chars := by
  have full : set.ranges.isEmpty = false := List.isEmpty_eq_false_iff.mpr some
  have rendered := Rendered.of_phrase phrase
  rw [denotes] at rendered
  exact rendered (by simp [Meaning.ofSet, Node.isReadable, full])
    (by simpa [Meaning.ofSet] using ⟨canonical, .refl _⟩)
    (by simp [Meaning.ofSet, Node.isOneChar, full])

private theorem ofRanges_singleton {range : CodeRange} (ordered : range.first ≤ range.last) :
    CharSet.ofRanges [range] = ⟨[range]⟩ := by
  simp [CharSet.ofRanges, CodeRange.spanning, CodeRange.place, CharSet.coalesce, ordered]

/-- A range is printed as an atom that denotes it. -/
theorem exists_phrase_range {range : CodeRange} (ordered : range.first ≤ range.last)
    (valid : range.last ≤ CharSet.maxCodePoint) :
    ∃ phrase : Phrase "atom" EndsAtom, phrase.chars = range.text.toList ∧ phrase.nesting = 0 ∧
      phrase.meaning = .ofSet ⟨[range]⟩ := by
  rw [CodeRange.text]
  split
  · rename_i point
    have single : CharSet.single range.first = ⟨[range]⟩ := by
      rw [CharSet.single, CodeRange.point, ← ofRanges_singleton ordered]
      conv_rhs => rw [show range = ⟨range.first, range.last⟩ from rfl, ← point]
    obtain ⟨digits, same, all, value⟩ := exists_digits range.first
    refine ⟨Atom.hex digits range.first.toNat all value (point ▸ valid), same.symm, rfl, ?_⟩
    simp [Atom.hex, single]
  · obtain ⟨first, sameFirst, allFirst, valueFirst⟩ := exists_digits range.first
    obtain ⟨last, sameLast, allLast, valueLast⟩ := exists_digits range.last
    refine ⟨Atom.range
      (.hex first range.first.toNat allFirst valueFirst (UInt32.le_trans ordered valid))
      (.hex last range.last.toNat allLast valueLast valid), ?_, rfl, ?_⟩
    · simp [sameFirst, sameLast, Atom.range, RangeEnd.hex]
    · simp [Atom.range, RangeEnd.hex, ofRanges_singleton ordered]

/-- A range is printed as an atom that means it. -/
theorem rendered_range {range : CodeRange} (ordered : range.first ≤ range.last)
    (valid : range.last ≤ CharSet.maxCodePoint) :
    Rendered "atom" EndsAtom (.chars ⟨[range]⟩) range.text.toList := by
  obtain ⟨phrase, written, -, denotes⟩ := exists_phrase_range ordered valid
  exact written ▸ Rendered.of_set phrase denotes (by simpa [CharSet.Canonical] using ordered)
    (by simp)

/-- A set is the choice of its ranges. -/
theorem likewise_ranges {ranges : List CodeRange} (canonical : CharSet.Canonical ranges)
    (some : ranges ≠ []) :
    Likewise (.first (ranges.map fun range => .chars ⟨[range]⟩)) (.chars ⟨ranges⟩) where
  alike := by
    have together : ∀ char, CharSet.contains ⟨ranges⟩ char =
        (ranges.map fun range => (⟨[range]⟩ : CharSet)).any (·.contains char) := by
      intro char
      have whole : CharSet.Canonical (CharSet.mk ranges).ranges := canonical
      have has : CharSet.contains ⟨ranges⟩ char = CharSet.covers ranges char.val :=
        whole.has_eq char.val
      rw [has, CharSet.covers, List.any_map]
      rfl
    have alike := Alike.first_chars together
    rwa [List.map_map] at alike
  readable := by
    simp [Node.isReadable, Node.areReadable_eq, List.all_map, Function.comp_def,
      List.isEmpty_eq_false_iff.mpr some]
  oneChar := by
    simp [Node.isOneChar, Node.areOneChar_eq, List.all_map, Function.comp_def,
      List.isEmpty_eq_false_iff.mpr some]

/-- The marker of a set without characters is read, but it stands for nothing. -/
theorem rendered_never {node : Node} (unreadable : node.isReadable = false) :
    Rendered "atom" EndsAtom node "<never>".toList := by
  have some : "never".toList ≠ [] := by decide
  have letters : "never".toList.all (fun char => char.isAlphanum || isJoiner char) = true := by
    decide
  have several : node.isOneChar = false := by
    by_contra one
    have readable := Node.isReadable_of_isOneChar node (Bool.not_eq_false _ ▸ one)
    exact absurd (unreadable.symm.trans readable) Bool.false_ne_true
  refine ⟨0, (Reads.special some (List.all_eq_true.mp letters)).imp
    fun source tree named found => ?_⟩
  obtain ⟨part, only, kind, written⟩ := found
  have fold : fold? source part = none := by
    rw [fold?_eq, foldParts.eq_def, kind]
    rfl
  have body : bodyOf source part = .error (.unknownSpecial "never" part.span) := by
    have name : String.ofList (quotedContent (part.text source).toList) = "never" := by
      rw [written]
      rfl
    rw [bodyOf_eq, bodyParts.eq_def, kind]
    simp [specialOf, name]
  refine Means.atom named only ⟨by simp [body], ?_, by simp [fold], ?_⟩
  · rw [body, unreadable]
    rfl
  · rw [isSingle_eq, singleParts.eq_def, kind, several]
    simp [fold]

/-- A set is printed as an atom that means it. -/
theorem rendered_set {set : CharSet} (valid : set.Valid) :
    Rendered "atom" EndsAtom (.chars set) set.text.toList := by
  rw [CharSet.text]
  split
  · rename_i any
    subst any
    exact Rendered.of_set Atom.any rfl CharSet.valid_any.canonical (by decide)
  · obtain ⟨ranges⟩ := set
    have each : ∀ range ∈ ranges, Rendered "atom" EndsAtom (.chars ⟨[range]⟩) range.text.toList :=
      fun range member => rendered_range (valid.canonical.1 range member)
        (valid.bounded range member)
    split
    · rename_i none
      obtain rfl : ranges = [] := none
      exact rendered_never rfl
    · rename_i range only
      obtain rfl : ranges = [range] := only
      exact each range List.mem_cons_self
    · rename_i none one
      have some : ranges ≠ [] := none
      rw [toList_bracketed, toList_joined]
      refine .group (Level.Renders.renderedBody
        (.of_likewise ?_ (likewise_ranges valid.canonical some).symm))
      refine .combine (by simpa using some) ?_
      rw [List.map_map, List.forall₂_map_left_iff, List.forall₂_map_right_iff, List.forall₂_same]
      exact fun range member => .of_atom (each range member)

/-! ### Literals -/

/-- Only the other quote has to end a run. -/
theorem endsRun_of_not_mem {quote char : Char} {run : List Char} (known : isQuote quote = true)
    (absent : quote ∉ run) (other : char ≠ quote) : Piece.endsRun run char = false := by
  rw [Piece.endsRun]
  split
  · rename_i sign needs
    obtain rfl : quote = sign := by
      unfold Piece.otherQuote? at needs
      obtain rfl | rfl : quote = '\'' ∨ quote = '"' := by simpa [isQuote] using known
      all_goals split at needs <;> first | exact Option.some.inj needs | simp_all
    simpa using absent
  · rfl

/-- What can be quoted is one run, as far as it is open and after that. -/
theorem split_of_fits {quote : Char} {run rest : List Char} (known : isQuote quote = true)
    (before : run.all (fits quote) = true) (all : rest.all (fits quote) = true)
    (some : run ++ rest ≠ []) : Piece.split run rest = [.quoted (run ++ rest)] := by
  induction rest generalizing run with
  | nil =>
      rw [List.append_nil] at some ⊢
      simp [Piece.split, Piece.ofRun, some]
  | cons char rest induction =>
      rw [List.all_cons, Bool.and_eq_true] at all
      have fit : char ≠ quote ∧ Piece.breaksLine char = false := by simpa [fits] using all.1
      have quotes : quote ∉ run := fun member => by
        simpa [fits] using List.all_eq_true.mp before quote member
      have continues := endsRun_of_not_mem known quotes fit.1
      rw [Piece.split, if_neg (by simp [fit.2]), if_neg (by simp [continues]), induction _ all.2]
      · simp
      · simp
      · simp [before, all.1]

/-- A literal that can be quoted is printed as one piece. -/
theorem ofText_ofList {quote : Char} {run : List Char} (known : isQuote quote = true)
    (some : run ≠ []) (all : run.all (fits quote) = true) :
    Piece.ofText (String.ofList run) = [.quoted run] := by
  rw [Piece.ofText, String.toList_ofList]
  exact split_of_fits known rfl all some

/-- A run that can be quoted is printed in quotes that it fits. -/
theorem exists_quote {quote : Char} {run : List Char} (known : isQuote quote = true)
    (all : run.all (fits quote) = true) :
    ∃ sign, isQuote sign = true ∧ run.all (fits sign) = true ∧
      (Piece.quoted run).text.toList = sign :: (run ++ [sign]) := by
  rw [Piece.text]
  split
  · rename_i single
    have double : quote = '"' := by
      obtain rfl | rfl : quote = '\'' ∨ quote = '"' := by simpa [isQuote] using known
      · have fit := List.all_eq_true.mp all '\'' (by simpa using single)
        cases fit
      · rfl
    exact ⟨'"', rfl, double ▸ all, by simp⟩
  · rename_i double
    have fit : run.all (fits '\'') = true := by
      rw [List.all_eq_true]
      intro char member
      have fit : char ≠ quote ∧ Piece.breaksLine char = false := by
        simpa [fits] using List.all_eq_true.mp all char member
      have apart : char ≠ '\'' := by
        rintro rfl
        exact double (by simpa using member)
      simp [fits, apart, fit.2]
    exact ⟨'\'', rfl, fit, by simp⟩

private theorem rendered_literal {quote : Char} {run : List Char} (known : isQuote quote = true)
    (some : run ≠ []) (all : run.all (fits quote) = true) (position : Position) :
    Rendered "atom" EndsAtom (.literal (String.ofList run))
      (literalText position (String.ofList run)).toList := by
  rw [literalText, ofText_ofList known some all]
  obtain ⟨sign, isSign, fit, written⟩ := exists_quote known all
  change Rendered _ _ _ (Piece.quoted run).text.toList
  rw [written]
  refine .of_phrase (Atom.quoted sign run isSign some fit) (by simp [Atom.quoted, Meaning.literal,
    Node.isReadable]) (fun set member => ?_) (by simp [Atom.quoted, Meaning.literal,
      Node.isOneChar])
  unfold Atom.quoted Meaning.literal at member
  dsimp only at member
  split at member
  · obtain rfl := Option.some.inj member
    exact ⟨CharSet.canonical_ofRanges _, .literal_single _⟩
  · cases member

/-! ### Expressions -/

/-- The texts of an expression in the three positions are read there, and mean it. -/
structure Printed (node : Node) : Prop where
  unit : Rendered "atom" EndsAtom node (nodeText .unit node).toList
  row : Level.row.Renders node (nodeText .sequence node).toList
  choice : Level.choice.Renders node (nodeText .alternation node).toList

private theorem nodeTexts_eq_map (position : Position) (nodes : List Node) :
    nodeTexts position nodes = nodes.map (nodeText position) := by
  induction nodes with
  | nil => rfl
  | cons node nodes induction => rw [nodeTexts, induction, List.map_cons]

namespace Printed

/-- An atom is printed alike in all positions. -/
theorem of_atom (atom : ∀ position, Rendered "atom" EndsAtom node (nodeText position node).toList) :
    Printed node :=
  ⟨atom .unit, .of_atom (atom .sequence), .of_atom (atom .alternation)⟩

/-- A text of a row is grouped to be a unit, and is a choice of one row. -/
theorem of_row (text : String) (row : Level.row.Renders node text.toList)
    (prints : ∀ position, nodeText position node = grouped (position = .unit) text) :
    Printed node := by
  have choice : Level.choice.Renders node text.toList := .of_part row.rendered
  refine ⟨?_, ?_, ?_⟩
  · rw [prints]
    change Rendered _ _ _ ("( " ++ text ++ " )").toList
    rw [toList_bracketed]
    exact .group choice.renderedBody
  · rw [prints]
    exact row
  · rw [prints]
    exact choice

/-- A text of a choice is grouped to be anything else. -/
theorem of_choice (text : String) (choice : Level.choice.Renders node text.toList)
    (prints : ∀ position, nodeText position node = grouped (position ≠ .alternation) text) :
    Printed node := by
  have group : Rendered "atom" EndsAtom node ("( " ++ text ++ " )").toList := by
    rw [toList_bracketed]
    exact .group choice.renderedBody
  refine ⟨?_, ?_, ?_⟩
  · rw [prints]
    exact group
  · rw [prints]
    exact .of_atom group
  · rw [prints]
    exact choice

private theorem sequence {children : List Node} (some : children ≠ [])
    (each : ∀ child ∈ children, Printed child) : Printed (.sequence children) := by
  refine of_row (joined " " (nodeTexts .sequence children)) ?_ fun position => ?_
  · rw [toList_joined, nodeTexts_eq_map]
    refine Level.Renders.combine some ?_
    rw [List.map_map, List.forall₂_map_right_iff, List.forall₂_same]
    exact fun child member => (each child member).row
  · obtain ⟨_, _, rfl⟩ := List.exists_cons_of_ne_nil some
    rfl

private theorem first {children : List Node} (some : children ≠ [])
    (each : ∀ child ∈ children, Printed child) : Printed (.first children) := by
  refine of_choice (joined " | " (nodeTexts .alternation children)) ?_ fun position => ?_
  · rw [toList_joined, nodeTexts_eq_map]
    refine Level.Renders.combine some ?_
    rw [List.map_map, List.forall₂_map_right_iff, List.forall₂_same]
    exact fun child member => (each child member).choice
  · rfl

end Printed

/-- A name in angle brackets is printed as it is read. -/
theorem Printed.special {name : String} (known : (name, node) ∈ specials)
    (prints : ∀ position, nodeText position node = "<" ++ name ++ ">") : Printed node := by
  refine .of_atom fun position => ?_
  have written : (nodeText position node).toList = '<' :: (name.toList ++ ['>']) := by
    simp [prints]
  have known' := known
  simp only [specials, List.mem_cons, Prod.mk.injEq, List.not_mem_nil, or_false] at known'
  have readable : node.isReadable = true ∧ node.isOneChar = false := by
    rcases known' with ⟨-, rfl⟩ | ⟨-, rfl⟩ | ⟨-, rfl⟩ <;> exact ⟨rfl, rfl⟩
  rw [written]
  exact .of_phrase (Atom.special name node known) readable.1
    (by simp [Atom.special, Meaning.ofNode]) readable.2.symm

private theorem repetitionText_count (count : Bound) :
    repetitionText count (some count) = braced count.text := by
  unfold repetitionText
  split <;> simp_all

/-- Every compiled expression is printed as texts that are read back to mean it. -/
theorem printed_of_compiled (compiled : Compiled node) : Printed node := by
  induction compiled with
  | empty => exact .special List.mem_cons_self fun _ => rfl
  | startOfLine => exact .special (.tail _ List.mem_cons_self) fun _ => rfl
  | endOfInput => exact .special (.tail _ (.tail _ List.mem_cons_self)) fun _ => rfl
  | literal known some all => exact .of_atom (rendered_literal known some all)
  | chars valid => exact .of_atom fun _ => rendered_set valid
  | @reference name arguments valid other all =>
      refine .of_atom fun position => ?_
      have written : (nodeText position (.reference (String.ofList name) arguments)).toList =
          name ++ optionalChars (parameterList (arguments.map argumentItem)) := by
        rw [chars_parameterList (chars_argumentItems arguments)]
        change (String.ofList name ++ parenthesised (arguments.map Binding.text)).toList = _
        rw [String.toList_append, String.toList_ofList]
      rw [written]
      exact .reference valid other all
  | sequence many _ induction => exact .sequence (by rintro rfl; cases many) induction
  | first many _ induction => exact .first (by rintro rfl; cases many) induction
  | @marked mark child _ induction =>
      refine Printed.of_row (nodeText .unit child ++ String.singleton mark.char) ?_ ?_
      · rw [String.toList_append, String.toList_singleton]
        exact .of_part (induction.unit.marked mark).difference
      · cases mark <;> exact fun _ => rfl
  | @counted count child valid _ induction =>
      refine Printed.of_row (nodeText .unit child ++ repetitionText count (some count)) ?_
        fun _ => rfl
      have written : (nodeText .unit child ++ repetitionText count (some count)).toList =
          (nodeText .unit child).toList ++ countChars (Bound.total count) := by
        simp [repetitionText_count, countChars, chars_total valid]
      rw [written]
      exact .of_part (induction.unit.counted valid).difference
  | @lookahead child positive _ induction =>
      refine .of_atom fun position => ?_
      have written : (nodeText position (.lookahead child positive)).toList = '[' :: ' ' ::
          ((Look.ahead positive).word ++ ' ' :: ((nodeText .alternation child).toList ++
            [' ', ']'])) := by
        change ("[ lookahead " ++ _ ++ nodeText .alternation child ++ " ]").toList = _
        cases positive <;> simp [Look.ahead, Look.word, Look.stem, Look.sign]
      rw [written]
      exact .lookahead induction.choice.renderedBody positive
  | @lookbehind child _ _ induction =>
      refine .of_atom fun position => ?_
      have written : (nodeText position (.lookbehind child)).toList = '[' :: ' ' ::
          (Look.behind.word ++ ' ' :: ((nodeText .alternation child).toList ++ [' ', ']'])) := by
        change ("[ lookbehind = " ++ nodeText .alternation child ++ " ]").toList = _
        simp [Look.word, Look.stem, Look.sign]
      rw [written]
      exact .lookbehind induction.choice.renderedBody

end Dialect

end Bnf

end ParametricGrammar
