import ParametricGrammar.Proofs.Printable
import ParametricGrammar.Proofs.Subtrees
/-!
# Unambiguous dumps

A dump has one line for each node of a tree. With ranges and parameters shown, it determines the
tree: each part of a line is found from what stands around it, as names and parameters have no
blanks, numbers are made of digits, and escaped text has no bare quotes. Where the line of a node
ends, a line break opens its content and a parenthesis closes it.
-/

namespace ParametricGrammar

/-! ### Parts of a text -/

/-- A text before the first of some characters, and what stands behind it, are determined by the
whole. -/
theorem cut_unique (stops : Char → Bool) {left right rest rest' : List Char}
    (free : ∀ char ∈ left, stops char = false) (free' : ∀ char ∈ right, stops char = false)
    (ends : rest.head?.any stops = true) (ends' : rest'.head?.any stops = true)
    (same : left ++ rest = right ++ rest') : left = right ∧ rest = rest' := by
  have taken (front tail : List Char) (free : ∀ char ∈ front, stops char = false)
      (ends : tail.head?.any stops = true) : (front ++ tail).takeWhile (!stops ·) = front := by
    rw [List.takeWhile_append_of_pos (by simpa using free)]
    cases tail with
    | nil => cases ends
    | cons stop tail =>
        have stopped : stops stop = true := ends
        rw [List.takeWhile_cons_of_neg (by simp [stopped]), List.append_nil]
  obtain rfl : left = right := by
    rw [← taken left rest free ends, same, taken right rest' free' ends']
  exact ⟨rfl, List.append_cancel_left same⟩

/-- What stands behind the first bare quote. -/
def behindQuote : List Char → List Char
  | '\\' :: _ :: rest => behindQuote rest
  | '"' :: rest => rest
  | _ :: rest => behindQuote rest
  | [] => []

private theorem behindQuote_append {front : List Char} (rest : List Char)
    (plain : ∀ char ∈ front, char ≠ '"' ∧ char ≠ '\\') :
    behindQuote (front ++ rest) = behindQuote rest := by
  induction front with
  | nil => rfl
  | cons char front induction =>
      obtain ⟨quote, backslash⟩ := plain char List.mem_cons_self
      rw [List.cons_append, behindQuote]
      · exact induction fun other member => plain other (List.mem_cons_of_mem char member)
      · rintro _ _ rfl
        exact absurd rfl backslash
      · rintro rfl
        exact absurd rfl quote

/-- Escaped text ends at the first bare quote. -/
theorem behindQuote_escapeText (text rest : List Char) :
    behindQuote ((escapeText text).toList ++ '"' :: rest) = rest := by
  induction text with
  | nil => rw [escapeText]; rfl
  | cons char text induction =>
      have split : (escapeText (char :: text)).toList =
          (escapeChar char).toList ++ (escapeText text).toList := by
        simp [escapeText]
      rw [split, List.append_assoc]
      rcases escapeChar_cases char with ⟨-, quote, backslash, same⟩ | ⟨next, more, -, same, plain⟩
      · rw [same, behindQuote_append, induction]
        simpa using ⟨quote, backslash⟩
      · rw [same, List.cons_append, List.cons_append, behindQuote, behindQuote_append, induction]
        exact fun other member => (plain other member).2

private theorem Numeral.decimal_injective {left right : Nat}
    (same : (decimal left).toList = (decimal right).toList) : left = right := by
  rw [decimal, decimal, String.toList_ofList, String.toList_ofList] at same
  have reads : natural? 10 (Nat.toDigits 10 left) = some left :=
    natural?_toDigits (by decide) (by decide) left
  rw [same, natural?_toDigits (by decide) (by decide)] at reads
  exact (Option.some.inj reads).symm

/-- A number is determined by a text that goes on with something else than a digit. -/
theorem decimal_unique {left right : Nat} {rest rest' : List Char}
    (ends : rest.head?.any (!Char.isDigit ·) = true)
    (ends' : rest'.head?.any (!Char.isDigit ·) = true)
    (same : (Numeral.decimal left).toList ++ rest = (Numeral.decimal right).toList ++ rest') :
    left = right ∧ rest = rest' := by
  have digits (value : Nat) : ∀ char ∈ (Numeral.decimal value).toList, (!char.isDigit) = false :=
    fun char member => by rw [Numeral.isDigit_of_mem_decimal member, Bool.not_true]
  obtain ⟨equal, behind⟩ :=
    cut_unique (!Char.isDigit ·) (digits left) (digits right) ends ends' same
  exact ⟨Numeral.decimal_injective equal, behind⟩

private theorem joined_eq_intercalate (separator : String) (texts : List String) :
    joined separator texts = separator.intercalate texts := by
  induction texts with
  | nil => rfl
  | cons text rest induction =>
      cases rest with
      | nil => exact String.intercalate_singleton.symm
      | cons second rest =>
          rw [String.intercalate_cons_cons, ← induction]
          rfl

/-- Texts without commas are determined by what is written of them with commas in between. -/
theorem joined_comma_injective {left right : List String} (some : left ≠ []) (some' : right ≠ [])
    (free : ∀ text ∈ left, ',' ∉ text.toList) (free' : ∀ text ∈ right, ',' ∉ text.toList)
    (same : joined "," left = joined "," right) : left = right := by
  have split {texts : List String} (some : texts ≠ []) (free : ∀ text ∈ texts, ',' ∉ text.toList) :
      (joined "," texts).toList.splitOn ',' = texts.map String.toList := by
    rw [joined_eq_intercalate, String.toList_intercalate]
    apply List.splitOn_intercalate
    · simpa using free
    · simpa using some
  have parts : left.map String.toList = right.map String.toList := by
    rw [← split some free, same, split some' free']
  exact List.map_injective_iff.mpr (fun _ _ => String.toList_inj.mp) parts

/-! ### Parameters -/

private theorem Formal.text_injective {left right : Formal} (same : left.text = right.text) :
    left = right :=
  Option.some.inj (by rw [← ofText?_text left, same, ofText?_text])

private theorem Context.text_injective {left right : Context} (same : left.text = right.text) :
    left = right :=
  Option.some.inj (by rw [← ofText?_text left, same, ofText?_text])

private theorem Chomping.text_injective {left right : Chomping} (same : left.text = right.text) :
    left = right :=
  Option.some.inj (by rw [← ofText?_text left, same, ofText?_text])

private theorem Numeral.signed_injective {left right : Int} (same : signed left = signed right) :
    left = right :=
  Option.some.inj (by rw [← integer?_signed left, same, integer?_signed])

/-- Values of one kind are told apart by their spelling. -/
theorem Value.eq_of_text_eq {value other : Value} (kind : value.formal = other.formal)
    (same : value.text = other.text) : value = other := by
  cases value with
  | int number =>
      cases other with
      | int number' => exact congrArg int (Int32.toInt_inj.mp (Numeral.signed_injective same))
      | context | chomping => cases kind
  | context context =>
      cases other with
      | context context' => exact congrArg Value.context (Context.text_injective same)
      | int | chomping => cases kind
  | chomping chomping =>
      cases other with
      | chomping chomping' => exact congrArg Value.chomping (Chomping.text_injective same)
      | int | context => cases kind

namespace Parameters

/-- The values that are bound to one formal are of one kind. -/
theorem formal_eq_of_get? {left right : Parameters} {formal : Formal} {value other : Value}
    (has : left.get? formal = some value) (has' : right.get? formal = some other) :
    value.formal = other.formal := by
  cases formal <;> simp only [get?, Option.map_eq_some_iff] at has has' <;>
    obtain ⟨-, -, rfl⟩ := has <;> obtain ⟨-, -, rfl⟩ := has' <;> rfl

private theorem mem_toList {parameters : Parameters} {formal : Formal} {value : Value} :
    (formal, value) ∈ parameters.toList ↔ parameters.get? formal = some value := by
  have listed : formal ∈ Formal.all := by cases formal <;> decide
  simp [toList, listed]

/-- The formal of an item stands before its equals sign. -/
theorem itemText_unique {formal formal' : Formal} {value other : Value}
    (same : itemText (formal, value) = itemText (formal', other)) :
    formal = formal' ∧ value.text = other.text := by
  have letter (formal : Formal) : ∀ char ∈ formal.text.toList, (char == '=') = false := by
    cases formal <;> simp [Formal.text]
  have chars := congrArg String.toList same
  simp only [itemText, String.toList_append, List.append_assoc] at chars
  obtain ⟨name, behind⟩ := cut_unique (· == '=') (letter formal) (letter formal') rfl rfl chars
  exact ⟨Formal.text_injective (String.toList_inj.mp name),
    String.toList_inj.mp (List.append_cancel_left behind)⟩

private theorem get?_of_itemTexts {left right : Parameters}
    (same : left.toList.map itemText = right.toList.map itemText) {formal : Formal}
    {value : Value} (has : left.get? formal = some value) : right.get? formal = some value := by
  have listed : itemText (formal, value) ∈ right.toList.map itemText :=
    same ▸ List.mem_map_of_mem (mem_toList.mpr has)
  obtain ⟨⟨formal', other⟩, bound, written⟩ := List.mem_map.mp listed
  obtain ⟨rfl, spelled⟩ := itemText_unique written
  have has' := mem_toList.mp bound
  rw [has', Value.eq_of_text_eq (formal_eq_of_get? has' has) spelled]

/-- Bound values are determined by what is written of each of them. -/
theorem eq_of_itemTexts {left right : Parameters}
    (same : left.toList.map itemText = right.toList.map itemText) : left = right := by
  apply eq_of_get?_eq
  intro formal
  apply Option.ext
  intro value
  exact ⟨get?_of_itemTexts same, get?_of_itemTexts same.symm⟩

private theorem toList_eq_nil_iff {parameters : Parameters} :
    parameters.toList = [] ↔ parameters.isEmpty = true := by
  obtain ⟨n, m, c, t⟩ := parameters
  cases n <;> cases m <;> cases c <;> cases t <;> simp [toList, Formal.all, get?, isEmpty]

private theorem text_eq_empty_iff {parameters : Parameters} :
    parameters.text = "" ↔ parameters.isEmpty = true := by
  cases empty : parameters.isEmpty with
  | true => simp [text, empty]
  | false => simp [text_of_bound empty]

/-- Parameters are determined by what is written of them. -/
theorem text_injective {left right : Parameters} (same : left.text = right.text) :
    left = right := by
  have commaFree (parameters : Parameters) :
      ∀ text ∈ parameters.toList.map itemText, ',' ∉ text.toList := by
    intro text among comma
    obtain ⟨item, -, rfl⟩ := List.mem_map.mp among
    rcases isAlphanum_or_mem_of_mem_itemText comma with alphanum | sign
    · cases alphanum
    · revert sign
      decide
  have someItem {parameters : Parameters} (bound : parameters.isEmpty = false) :
      parameters.toList.map itemText ≠ [] := by
    intro none
    rw [toList_eq_nil_iff.mp (List.map_eq_nil_iff.mp none)] at bound
    cases bound
  have alike : left.isEmpty = right.isEmpty := by
    rw [Bool.eq_iff_iff, ← text_eq_empty_iff, ← text_eq_empty_iff, same]
  apply eq_of_itemTexts
  cases empty : left.isEmpty with
  | true => rw [toList_eq_nil_iff.mpr empty, toList_eq_nil_iff.mpr (alike ▸ empty)]
  | false =>
      have empty' : right.isEmpty = false := alike ▸ empty
      apply joined_comma_injective (someItem empty) (someItem empty') (commaFree left)
        (commaFree right)
      rw [text_of_bound empty, text_of_bound empty'] at same
      exact (String.append_right_inj "(").mp ((String.append_left_inj ")").mp same)

end Parameters

/-! ### Lines -/

/-- A name has no blank, no opening parenthesis and no line break, as names of the dialect. -/
def IsWord (name : String) : Prop := ∀ char ∈ name.toList, char ≠ ' ' ∧ char ≠ '(' ∧ char ≠ '\n'

/-- Letters, digits and the signs that occur in names of the dialect make words. -/
theorem isWord_of_all {name : String}
    (all : name.toList.all (fun char => char.isAlphanum || char == '-' || char == '+') = true) :
    IsWord name := by
  intro char member
  have allowed := List.all_eq_true.mp all char member
  refine ⟨?_, ?_, ?_⟩ <;>
  · rintro rfl
    cases allowed

/-- Everything that a dump can show, without colours. -/
def DumpOptions.full : DumpOptions := { spans := true, parameters := true }

namespace Tree

variable {source rest rest' : List Char} {left right : Tree}

/-- The range that a node covers, as a dump shows it. -/
def rangeChars (tree : Tree) : List Char :=
  '[' :: ((Numeral.decimal tree.start).toList ++
    '.' :: '.' :: ((Numeral.decimal tree.stop).toList ++ [']']))

/-- The text that a leaf covers, as a dump shows it. -/
def leafChars (source : List Char) (tree : Tree) : List Char :=
  if tree.content.isEmpty then
    '"' :: ((escapeText ((slice? source tree.start tree.stop).getD [])).toList ++ ['"', ' '])
  else []

private theorem toList_label (source : List Char) (tree : Tree) :
    (label .full source tree).toList =
      '(' :: (tree.name.toList ++ (tree.parameters.text.toList ++
        ' ' :: (leafChars source tree ++ rangeChars tree))) := by
  have parameters : (if tree.parameters.isEmpty = false then tree.parameters.text else "") =
      tree.parameters.text := by
    cases empty : tree.parameters.isEmpty with
    | true => exact (Parameters.text_eq_empty_iff.mpr empty).symm
    | false => rfl
  cases leaf : tree.content.isEmpty <;>
    simp [label, DumpOptions.full, Palette.plain, parameters, leaf, leafChars, rangeChars]

private theorem rangeChars_unique (same : rangeChars left ++ rest = rangeChars right ++ rest') :
    left.start = right.start ∧ left.stop = right.stop ∧ rest = rest' := by
  simp only [rangeChars, List.cons_append, List.append_assoc, List.nil_append, List.cons.injEq,
    true_and] at same
  obtain ⟨start, behind⟩ := decimal_unique (by rfl) (by rfl) same
  simp only [List.cons.injEq, true_and] at behind
  obtain ⟨stop, behind⟩ := decimal_unique (by rfl) (by rfl) behind
  exact ⟨start, stop, List.tail_eq_of_cons_eq behind⟩

/-- The text of a leaf may hold anything, but its quotes show where it ends. -/
theorem placeChars_unique
    (same : leafChars source left ++ (rangeChars left ++ rest) =
      leafChars source right ++ (rangeChars right ++ rest')) :
    left.start = right.start ∧ left.stop = right.stop ∧ rest = rest' := by
  apply rangeChars_unique
  -- A quote opens the text of a leaf, but a bracket opens the range of a node with content.
  cases leaf : left.content.isEmpty <;> cases leaf' : right.content.isEmpty <;>
    simp only [leafChars, leaf, leaf', if_true, if_false, Bool.false_eq_true, List.nil_append,
      List.cons_append, List.append_assoc] at same
  · exact same
  · cases same
  · cases same
  · have behind := congrArg behindQuote (List.tail_eq_of_cons_eq same)
    rw [behindQuote_escapeText, behindQuote_escapeText] at behind
    exact List.tail_eq_of_cons_eq behind

/-- Behind a name stands a blank, or the parenthesis that opens its parameters. -/
theorem head?_behind_name (parameters : Parameters) (rest : List Char) :
    (parameters.text.toList ++ ' ' :: rest).head?.any (fun char => char == ' ' || char == '(') =
      true := by
  cases empty : parameters.isEmpty with
  | true => rw [Parameters.text_eq_empty_iff.mpr empty]; rfl
  | false => simp [Parameters.text_of_bound empty]

private theorem label_unique (word : IsWord left.name) (word' : IsWord right.name)
    (same : (label .full source left).toList ++ rest = (label .full source right).toList ++ rest') :
    left.name = right.name ∧ left.parameters = right.parameters ∧ left.start = right.start ∧
      left.stop = right.stop ∧ rest = rest' := by
  have noCut {name : String} (word : IsWord name) :
      ∀ char ∈ name.toList, (char == ' ' || char == '(') = false := by
    intro char member
    simp [word char member]
  have noBlank (parameters : Parameters) :
      ∀ char ∈ parameters.text.toList, (char == ' ') = false := by
    intro char member
    rcases Parameters.isAlphanum_or_mem_of_mem_text member with alphanum | sign
    · simpa using fun blank => by cases blank ▸ alphanum
    · have all : ['-', '=', ',', '(', ')'].all (· != ' ') = true := by decide
      simpa using List.all_eq_true.mp all char sign
  simp only [toList_label, List.cons_append, List.append_assoc, List.cons.injEq, true_and] at same
  obtain ⟨name, behind⟩ := cut_unique (fun char => char == ' ' || char == '(') (noCut word)
    (noCut word') (head?_behind_name _ _) (head?_behind_name _ _) same
  obtain ⟨parameters, behind⟩ := cut_unique (· == ' ') (noBlank left.parameters)
    (noBlank right.parameters) rfl rfl behind
  have places := placeChars_unique (List.tail_eq_of_cons_eq behind)
  exact ⟨String.toList_inj.mp name, Parameters.text_injective (String.toList_inj.mp parameters),
    places⟩

/-! ### Trees -/

/-- All nodes have words as names. -/
def HasWords (tree : Tree) : Prop := ∀ entry ∈ tree.preorder 0, IsWord entry.2.name

mutual

/-- A tree is determined by a text that starts with its dump. -/
theorem dumpFrom_unique (source : List Char) (depth : Nat) : ∀ (left right : Tree)
    (rest rest' : List Char), (∀ entry ∈ left.preorder depth, IsWord entry.2.name) →
      (∀ entry ∈ right.preorder depth, IsWord entry.2.name) →
      (dumpFrom .full source depth left).toList ++ rest =
        (dumpFrom .full source depth right).toList ++ rest' → left = right ∧ rest = rest'
  | ⟨name, parameters, content, start, stop⟩, ⟨name', parameters', content', start', stop'⟩,
      rest, rest', words, words', same => by
      rw [preorder, List.forall_mem_cons] at words words'
      simp only [dumpFrom, String.toList_append, List.append_assoc, List.append_cancel_left_eq]
        at same
      obtain ⟨rfl, rfl, rfl, rfl, behind⟩ := label_unique words.1 words'.1 same
      obtain ⟨rfl, ends⟩ :=
        dumpAll_unique source (depth + 1) content content' rest rest' words.2 words'.2 behind
      exact ⟨rfl, ends⟩

/-- Trees are determined by a text that starts with their dumps and a closing parenthesis. -/
theorem dumpAll_unique (source : List Char) (depth : Nat) : ∀ (left right : List Tree)
    (rest rest' : List Char), (∀ entry ∈ preorderAll depth left, IsWord entry.2.name) →
      (∀ entry ∈ preorderAll depth right, IsWord entry.2.name) →
      (dumpAll .full source depth left).toList ++ ')' :: rest =
        (dumpAll .full source depth right).toList ++ ')' :: rest' → left = right ∧ rest = rest'
  | [], [], rest, rest', _, _, same => by
      rw [dumpAll] at same
      exact ⟨rfl, List.tail_eq_of_cons_eq same⟩
  | [], tree :: more, rest, rest', _, _, same | tree :: more, [], rest, rest', _, _, same => by
      -- A line break opens a further tree, but a parenthesis ends the content.
      simp [dumpAll] at same
  | tree :: more, tree' :: more', rest, rest', words, words', same => by
      rw [preorderAll, List.forall_mem_append] at words words'
      simp only [dumpAll, String.toList_append, List.append_assoc, List.append_cancel_left_eq]
        at same
      obtain ⟨rfl, behind⟩ := dumpFrom_unique source depth tree tree' _ _ words.1 words'.1 same
      obtain ⟨rfl, ends⟩ :=
        dumpAll_unique source depth more more' rest rest' words.2 words'.2 behind
      exact ⟨rfl, ends⟩

end

/-! ### One line for each node -/

/-- Parentheses that close nodes. -/
def closers (count : Nat) : String := String.ofList (List.replicate count ')')

/-- A line shows a node, behind two blanks for each level. Behind it are the closing parentheses of
the nodes that end with it. -/
structure IsLineOf (options : DumpOptions) (source : List Char) (entry : Nat × Tree)
    (line : String) : Prop where
  whole : '\n' ∉ line.toList
  shows : ∃ closing, line.toList = List.replicate (2 * entry.1) ' ' ++
    (label options source entry.2).toList ++ List.replicate closing ')'

/-- Lines with their line breaks. -/
def unlines (lines : List String) : String := String.join (lines.map (· ++ "\n"))

private theorem closers_succ (count : Nat) : closers (count + 1) = ")" ++ closers count := by
  apply String.toList_inj.mp
  simp [closers, List.replicate_succ]

private theorem unlines_cons (line : String) (lines : List String) :
    unlines (line :: lines) = line ++ "\n" ++ unlines lines := by
  rw [unlines, List.map_cons, String.join_cons, ← unlines]

private theorem unlines_append (lines more : List String) :
    unlines (lines ++ more) = unlines lines ++ unlines more := by
  rw [unlines, List.map_append, String.join_append, ← unlines, ← unlines]

private theorem toList_indentation (depth : Nat) :
    (indentation depth).toList = List.replicate (2 * depth) ' ' := by
  induction depth with
  | zero => rfl
  | succ depth induction =>
      rw [indentation, List.replicate_succ, String.join_cons, ← indentation, String.toList_append,
        induction]
      rfl

variable {spans parameters : Bool}

/-- Besides its name, nothing that is shown of a node can break its line. -/
theorem lineBreak_notMem_label (source : List Char) (tree : Tree) (word : IsWord tree.name) :
    '\n' ∉ (label ⟨spans, parameters, .plain⟩ source tree).toList := by
  have breakFree {text : String} (printable : IsPrintable text) : '\n' ∉ text.toList :=
    printable.notMem rfl
  have name : '\n' ∉ tree.name.toList := fun member => (word '\n' member).2.2 rfl
  simp only [label, Palette.plain, String.toList_append, List.mem_append, not_or]
  refine ⟨⟨⟨⟨⟨⟨?_, ?_⟩, name⟩, ?_⟩, ?_⟩, ?_⟩, ?_⟩
  · decide
  · decide
  · decide
  all_goals split <;>
    simp [breakFree (isPrintable_escapeText _), breakFree (isPrintable_decimal _),
      breakFree tree.parameters.isPrintable_text]

private theorem isLineOf_label {depth : Nat} {tree : Tree} (source : List Char) (closing : Nat)
    (word : IsWord tree.name) : IsLineOf ⟨spans, parameters, .plain⟩ source (depth, tree)
      (indentation depth ++ label ⟨spans, parameters, .plain⟩ source tree ++ closers closing) := by
  have shows : (indentation depth ++ label ⟨spans, parameters, .plain⟩ source tree ++
      closers closing).toList = List.replicate (2 * depth) ' ' ++
        (label ⟨spans, parameters, .plain⟩ source tree).toList ++ List.replicate closing ')' := by
    rw [String.toList_append, String.toList_append, toList_indentation, closers,
      String.toList_ofList]
  refine ⟨?_, closing, shows⟩
  rw [shows]
  simp [lineBreak_notMem_label source tree word]

mutual

/-- A dump has a line for each node, if closing parentheses and a line break follow it. -/
theorem exists_lines_dumpFrom (source : List Char) (depth : Nat) : ∀ (tree : Tree) (closing : Nat),
    (∀ entry ∈ tree.preorder depth, IsWord entry.2.name) → ∃ lines,
      dumpFrom ⟨spans, parameters, .plain⟩ source depth tree ++ (closers closing ++ "\n") =
          unlines lines ∧
        List.Forall₂ (IsLineOf ⟨spans, parameters, .plain⟩ source) (tree.preorder depth) lines
  | ⟨name, bound, content, start, stop⟩, closing, words => by
      rw [preorder, List.forall_mem_cons] at words
      obtain ⟨within, lines, same, shown⟩ :=
        exists_lines_dumpAll source (depth + 1) content (closing + 1) words.2
      refine ⟨_ :: lines, ?_, .cons (isLineOf_label source within words.1) shown⟩
      -- The parenthesis of the node ends the last line of its content, or its own line.
      have closed : ")" ++ (closers closing ++ "\n") = closers (closing + 1) ++ "\n" := by
        rw [closers_succ, String.append_assoc]
      rw [dumpFrom, unlines_cons]
      simp only [String.append_assoc, closed, same]

/-- The line that stands before some trees ends with closing parentheses, and each node of the trees
has a line. -/
theorem exists_lines_dumpAll (source : List Char) (depth : Nat) : ∀ (trees : List Tree)
    (closing : Nat), (∀ entry ∈ preorderAll depth trees, IsWord entry.2.name) → ∃ within lines,
      dumpAll ⟨spans, parameters, .plain⟩ source depth trees ++ (closers closing ++ "\n") =
          closers within ++ "\n" ++ unlines lines ∧
        List.Forall₂ (IsLineOf ⟨spans, parameters, .plain⟩ source) (preorderAll depth trees) lines
  | [], closing, _ =>
      ⟨closing, [], by rw [dumpAll]; simp [unlines], .nil⟩
  | tree :: rest, closing, words => by
      rw [preorderAll, List.forall_mem_append] at words
      obtain ⟨within, later, same, shown⟩ := exists_lines_dumpAll source depth rest closing words.2
      obtain ⟨lines, first, shownFirst⟩ := exists_lines_dumpFrom source depth tree within words.1
      refine ⟨0, lines ++ later, ?_, List.rel_append shownFirst shown⟩
      rw [String.append_assoc] at same
      rw [dumpAll, unlines_append]
      simp only [String.append_assoc, same, ← first]
      rfl

end

/-- Dumps are unambiguous. Trees with words as names have the same dump against a source, with
ranges and parameters shown, only if they are the same. A dump without colours is made of one line
for each node, in preorder and indented by two blanks for each level. -/
theorem dump_unambiguous (source : List Char) {left right : Tree} (words : left.HasWords)
    (words' : right.HasWords) :
    (dump .full source left = dump .full source right ↔ left = right) ∧
      ∀ spans parameters : Bool, ∃ lines,
        dump ⟨spans, parameters, .plain⟩ source left = unlines lines ∧
          List.Forall₂ (IsLineOf ⟨spans, parameters, .plain⟩ source) (left.preorder 0) lines := by
  constructor
  · constructor
    · intro same
      have chars := congrArg String.toList same
      simp only [dump, String.toList_append] at chars
      exact (dumpFrom_unique source 0 left right _ _ words words' chars).1
    · rintro rfl
      rfl
  · intro spans parameters
    obtain ⟨lines, same, shown⟩ := exists_lines_dumpFrom source 0 left 0 words
    exact ⟨lines, same, shown⟩

/-- Text that looks like the end of a dump. -/
def dumpLike : List Char := ['a', '"', ')', '\n', ' ', '(']

/-- A comment of one text. -/
def comment : Tree :=
  ⟨"comment+", { n := some (-1), c := some .flowKey }, [⟨"text-1", .empty, [], 0, 6⟩], 0, 6⟩

/-- The comment with its text in two parts. -/
def dividedComment : Tree :=
  ⟨"comment+", { n := some (-1), c := some .flowKey },
    [⟨"text-1", .empty, [], 0, 1⟩, ⟨"text-1", .empty, [], 1, 6⟩], 0, 6⟩

theorem dump_unambiguous_comment :
    comment.HasWords ∧ dividedComment.HasWords ∧
      (dump .full dumpLike comment = dump .full dumpLike dividedComment ↔
        comment = dividedComment) ∧
      ∀ spans parameters : Bool, ∃ lines,
        dump ⟨spans, parameters, .plain⟩ dumpLike comment = unlines lines ∧
          List.Forall₂ (IsLineOf ⟨spans, parameters, .plain⟩ dumpLike) (comment.preorder 0)
            lines := by
  have outer : IsWord "comment+" := isWord_of_all (by decide)
  have inner : IsWord "text-1" := isWord_of_all (by decide)
  have words : comment.HasWords := by
    simp [HasWords, comment, preorder, preorderAll, outer, inner]
  have words' : dividedComment.HasWords := by
    simp [HasWords, dividedComment, preorder, preorderAll, outer, inner]
  exact ⟨words, words', dump_unambiguous dumpLike words words'⟩

example : dump { spans := true, parameters := true } ['"', ')', '\n']
    ⟨"text-1", { n := some (-1), c := some .flowKey }, [], 0, 3⟩ =
      "(text-1(n=-1,c=flow-key) \"\\\")\\n\" [0..3])\n" := by
  decide

end Tree

end ParametricGrammar
