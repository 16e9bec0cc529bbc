import ParametricGrammar.Proofs.Numerals
import ParametricGrammar.Tree.Dump
/-!
# Printable texts

What dumps and traces print besides names has no control characters: numbers and parameters are made
of few characters, and matched text is escaped. So it breaks no line, and it is no part of an escape
sequence of the terminal.
-/

namespace ParametricGrammar

/-- A text has no control characters. -/
def IsPrintable (text : String) : Prop := ∀ char ∈ text.toList, isControl char = false

private theorem toNat_lt_of_isControl {char : Char} (control : isControl char = true) :
    char.toNat < 0xa0 := by
  simp only [isControl, Bool.or_eq_true, decide_eq_true_eq, Bool.and_eq_true] at control
  omega

private theorem isControl_of_isAlphanum {char : Char} (alphanum : char.isAlphanum = true) :
    isControl char = false := by
  cases control : isControl char with
  | false => rfl
  | true =>
      have apart : ∀ code < 0xa0, isControl (Char.ofNat code) = true →
          (Char.ofNat code).isAlphanum = false := by
        decide +kernel
      have other := apart char.toNat (toNat_lt_of_isControl control)
      rw [Char.ofNat_toNat, control, alphanum] at other
      cases other rfl

namespace IsPrintable

variable {text : String} {texts : List String}

theorem join (all : ∀ text ∈ texts, IsPrintable text) : IsPrintable (String.join texts) := by
  intro char member
  rw [String.toList_join, List.mem_flatMap] at member
  obtain ⟨text, among, member⟩ := member
  exact all text among char member

/-- A control character is no character of a printable text. -/
theorem notMem (printable : IsPrintable text) {char : Char} (control : isControl char = true) :
    char ∉ text.toList := fun member => by
  rw [printable char member] at control
  cases control

end IsPrintable

/-! ### Numbers and parameters -/

theorem Numeral.isDigit_of_mem_decimal {value : Nat} {char : Char}
    (member : char ∈ (decimal value).toList) : char.isDigit = true := by
  rw [decimal, String.toList_ofList] at member
  exact Nat.isDigit_of_mem_toDigits (by decide) (by decide) member

theorem isPrintable_decimal (value : Nat) : IsPrintable (Numeral.decimal value) := by
  intro char member
  refine isControl_of_isAlphanum ?_
  rw [Char.isAlphanum, Numeral.isDigit_of_mem_decimal member, Bool.or_true]

/-- Values are spelled with letters, digits and hyphens. -/
theorem Value.isAlphanum_or_eq_of_mem_text {value : Value} {char : Char}
    (member : char ∈ value.text.toList) : char.isAlphanum = true ∨ char = '-' := by
  cases value with
  | int number =>
      rw [text, Numeral.toList_signed, List.mem_append] at member
      rcases member with sign | digit
      · split at sign
        · exact .inr (List.mem_singleton.mp sign)
        · cases sign
      · have isDigit := Nat.isDigit_of_mem_toDigits (by decide) (by decide) digit
        exact .inl (by rw [Char.isAlphanum, isDigit, Bool.or_true])
  | context context =>
      have all : context.text.toList.all (fun char => char.isAlphanum || char == '-') = true := by
        cases context <;> decide
      simpa using List.all_eq_true.mp all char member
  | chomping chomping =>
      have all : chomping.text.toList.all (fun char => char.isAlphanum || char == '-') = true := by
        cases chomping <;> decide
      simpa using List.all_eq_true.mp all char member

private theorem mem_joined {separator : String} {texts : List String} {char : Char}
    (member : char ∈ (joined separator texts).toList) :
    char ∈ separator.toList ∨ ∃ text ∈ texts, char ∈ text.toList := by
  induction texts with
  | nil => cases member
  | cons text rest induction =>
      cases rest with
      | nil => exact .inr ⟨text, List.mem_singleton.mpr rfl, member⟩
      | cons second rest =>
          rw [joined, String.toList_append, String.toList_append, List.mem_append,
            List.mem_append] at member
          · rcases member with (here | between) | later
            · exact .inr ⟨text, List.mem_cons_self, here⟩
            · exact .inl between
            · rcases induction later with between | ⟨other, among, member⟩
              · exact .inl between
              · exact .inr ⟨other, List.mem_cons_of_mem text among, member⟩
          · exact List.cons_ne_nil second rest

namespace Parameters

/-- A bound formal with its value. -/
def itemText (item : Formal × Value) : String := item.1.text ++ "=" ++ item.2.text

theorem isAlphanum_or_mem_of_mem_itemText {item : Formal × Value} {char : Char}
    (member : char ∈ (itemText item).toList) : char.isAlphanum = true ∨ char ∈ ['-', '='] := by
  simp only [itemText, String.toList_append, List.mem_append] at member
  rcases member with (name | equals) | value
  · have all : item.1.text.toList.all Char.isAlphanum = true := by
      cases item.1 <;> decide
    exact .inl (List.all_eq_true.mp all char name)
  · obtain rfl := List.mem_singleton.mp equals
    exact .inr (by decide)
  · exact (Value.isAlphanum_or_eq_of_mem_text value).imp_right fun same => by simp [same]

/-- What is written of parameters that are bound. -/
theorem text_of_bound {parameters : Parameters} (bound : parameters.isEmpty = false) :
    parameters.text = "(" ++ joined "," (parameters.toList.map itemText) ++ ")" := by
  rw [text, if_neg (by simp [bound])]
  rfl

theorem isAlphanum_or_mem_of_mem_text {parameters : Parameters} {char : Char}
    (member : char ∈ parameters.text.toList) :
    char.isAlphanum = true ∨ char ∈ ['-', '=', ',', '(', ')'] := by
  cases empty : parameters.isEmpty with
  | true =>
      rw [text, if_pos empty] at member
      cases member
  | false =>
      rw [text_of_bound empty, String.toList_append, String.toList_append, List.mem_append,
        List.mem_append] at member
      rcases member with (opening | inside) | closing
      · obtain rfl := List.mem_singleton.mp opening
        exact .inr (by decide)
      · rcases mem_joined inside with comma | ⟨item, among, member⟩
        · obtain rfl := List.mem_singleton.mp comma
          exact .inr (by decide)
        · obtain ⟨item, -, rfl⟩ := List.mem_map.mp among
          refine (isAlphanum_or_mem_of_mem_itemText member).imp_right fun among => ?_
          simp only [List.mem_cons] at among ⊢
          tauto
      · obtain rfl := List.mem_singleton.mp closing
        exact .inr (by decide)

theorem isPrintable_text (parameters : Parameters) : IsPrintable parameters.text := by
  intro char member
  rcases isAlphanum_or_mem_of_mem_text member with alphanum | sign
  · exact isControl_of_isAlphanum alphanum
  · have all : ['-', '=', ',', '(', ')'].all (!isControl ·) = true := by decide
    simpa using List.all_eq_true.mp all char sign

end Parameters

/-! ### Escaped text -/

/-- Code points of control characters are written with letters and digits. -/
theorem isAlphanum_of_mem_lowerHex {code : Nat} (small : code < 0xa0) {char : Char}
    (member : char ∈ (Numeral.lowerHex 4 code).toList) : char.isAlphanum = true := by
  have all : ∀ code < 0xa0, (Numeral.lowerHex 4 code).toList.all Char.isAlphanum = true := by
    decide +kernel
  exact List.all_eq_true.mp (all code small) char member

/-- A character is escaped by a backslash and at least one more character, or it stands for itself
and is neither a quote nor a backslash. Behind the backslash and the next character there are no
quotes and no backslashes. -/
theorem escapeChar_cases (char : Char) :
    (isControl char = false ∧ char ≠ '"' ∧ char ≠ '\\' ∧ (escapeChar char).toList = [char]) ∨
      ∃ next more, isControl next = false ∧ (escapeChar char).toList = '\\' :: next :: more ∧
        ∀ other ∈ more, isControl other = false ∧ other ≠ '"' ∧ other ≠ '\\' := by
  unfold escapeChar
  split_ifs with line ret tab backslash quote control
  · exact .inr ⟨'n', [], by decide, rfl, by simp⟩
  · exact .inr ⟨'r', [], by decide, rfl, by simp⟩
  · exact .inr ⟨'t', [], by decide, rfl, by simp⟩
  · exact .inr ⟨'\\', [], by decide, rfl, by simp⟩
  · exact .inr ⟨'"', [], by decide, rfl, by simp⟩
  · have small : char.toNat < 0xa0 := toNat_lt_of_isControl control
    refine .inr ⟨'u', '{' :: ((Numeral.lowerHex 4 char.toNat).toList ++ ['}']), by decide,
      ?_, fun other member => ?_⟩
    · rw [String.toList_append, toList_braced]
      rfl
    · simp only [List.mem_cons, List.mem_append, List.not_mem_nil, or_false] at member
      rcases member with rfl | digit | rfl
      · decide
      · have alphanum := isAlphanum_of_mem_lowerHex small digit
        refine ⟨isControl_of_isAlphanum alphanum, ?_, ?_⟩ <;>
        · rintro rfl
          cases alphanum
      · decide
  · rw [Bool.not_eq_true] at control
    exact .inl ⟨control, quote, backslash, String.toList_singleton char⟩

theorem isPrintable_escapeText (text : List Char) : IsPrintable (escapeText text) := by
  refine .join fun escaped member => ?_
  obtain ⟨char, -, rfl⟩ := List.mem_map.mp member
  intro other member
  rcases escapeChar_cases char with ⟨plain, -, -, same⟩ | ⟨next, more, plain, same, others⟩
  · rw [same, List.mem_singleton] at member
    exact member ▸ plain
  · rw [same, List.mem_cons, List.mem_cons] at member
    rcases member with rfl | rfl | later
    · decide
    · exact plain
    · exact (others other later).1

end ParametricGrammar
