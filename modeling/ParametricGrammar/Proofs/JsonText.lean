import Mathlib.Data.List.TakeDrop
import ParametricGrammar.Json.Reader
import ParametricGrammar.Proofs.Numerals
/-!
# Texts of JSON values

What is written for a value is read back as the value, whatever it is nested in and whatever text
follows that cannot continue a number. The reader counts down once for each item, so a count of the
characters is enough.
-/

namespace ParametricGrammar

namespace Json

variable {text rest : List Char} {fuel level : Nat}

/-! ### Blanks -/

private theorem skipBlanks_append {blanks : List Char}
    (blank : ∀ char ∈ blanks, isBlank char = true) :
    skipBlanks (blanks ++ text) = skipBlanks text := by
  rw [skipBlanks, List.dropWhile_append_of_pos blank]
  rfl

private theorem skipBlanks_cons_blank {char : Char} (blank : isBlank char = true) :
    skipBlanks (char :: text) = skipBlanks text :=
  List.dropWhile_cons_of_pos blank

private theorem isBlank_of_mem_newLine {char : Char} (member : char ∈ (newLine level).toList) :
    isBlank char = true := by
  rw [newLine, String.toList_append, List.mem_append] at member
  rcases member with start | indent
  · obtain rfl : char = '\n' := by simpa using start
    rfl
  · induction level with
    | zero => simp at indent
    | succ level induction =>
        rw [List.replicate_succ, String.join_cons, String.toList_append, List.mem_append] at indent
        rcases indent with here | later
        · obtain rfl : char = ' ' := by simpa using here
          rfl
        · exact induction later

private theorem skipBlanks_newLine :
    skipBlanks ((newLine level).toList ++ text) = skipBlanks text :=
  skipBlanks_append fun _ => isBlank_of_mem_newLine

private theorem length_newLine_pos (level : Nat) : 0 < (newLine level).toList.length := by
  rw [newLine, String.toList_append, List.length_append]
  exact Nat.add_pos_left (by decide) _

/-- A value is read from the first character ahead that is not blank. -/
theorem value?_congr {other : List Char} (same : skipBlanks text = skipBlanks other) :
    value? fuel text = value? fuel other := by
  cases fuel with
  | zero => rfl
  | succ fuel => rw [value?, value?, same]

private theorem value?_space : value? fuel (' ' :: text) = value? fuel text :=
  value?_congr (skipBlanks_cons_blank (by decide))

private theorem items?_newLine :
    items? fuel ((newLine level).toList ++ text) = items? fuel text := by
  cases fuel with
  | zero => rfl
  | succ fuel => rw [items?, items?, value?_congr skipBlanks_newLine]

private theorem fields?_newLine :
    fields? fuel ((newLine level).toList ++ text) = fields? fuel text := by
  cases fuel with
  | zero => rfl
  | succ fuel => rw [fields?, fields?, skipBlanks_newLine]

/-! ### Strings -/

private theorem natural?_lowerHex {code : Nat} (control : code < 0x20) :
    ∃ a b c d, (Numeral.lowerHex 4 code).toList = [a, b, c, d] ∧
      Numeral.natural? 16 [a, b, c, d] = some code := by
  have all : ∀ code < 0x20, (Numeral.lowerHex 4 code).toList.length = 4 ∧
      Numeral.natural? 16 (Numeral.lowerHex 4 code).toList = some code := by decide
  obtain ⟨long, reads⟩ := all code control
  match digits : (Numeral.lowerHex 4 code).toList with
  | [a, b, c, d] => exact ⟨a, b, c, d, rfl, digits ▸ reads⟩
  | [] | [_] | [_, _] | [_, _, _] | _ :: _ :: _ :: _ :: _ :: _ => simp [digits] at long

/-- A character of a string is read back from what is written for it. -/
theorem stringCodes?_escapeChar (char : Char) {codes : List Nat} {tail : List Char}
    (reads : stringCodes? text = some (codes, tail)) :
    stringCodes? ((escapeChar char).toList ++ text) = some (char.toNat :: codes, tail) := by
  unfold escapeChar
  split_ifs with quote backslash back feed line ret tab control
  · subst quote
    simp [stringCodes?, shortEscape?, reads]
  · subst backslash
    simp [stringCodes?, shortEscape?, reads]
  · subst back
    simp [stringCodes?, shortEscape?, reads]
  · subst feed
    simp [stringCodes?, shortEscape?, reads]
  · subst line
    simp [stringCodes?, shortEscape?, reads]
  · subst ret
    simp [stringCodes?, shortEscape?, reads]
  · subst tab
    simp [stringCodes?, shortEscape?, reads]
  · obtain ⟨a, b, c, d, digits, code⟩ := natural?_lowerHex control
    rw [String.toList_append, digits]
    show stringCodes? ('\\' :: 'u' :: a :: b :: c :: d :: text) = _
    simp [stringCodes?, code, reads]
  · rw [String.toList_singleton, List.singleton_append, stringCodes?]
    · simp [control, reads]
    all_goals simp [quote, backslash]

private theorem toList_quote (content : String) :
    (quote content).toList =
      '"' :: (content.toList.flatMap (fun char => (escapeChar char).toList) ++ ['"']) := by
  have joined : ∀ chars : List Char, (String.join (chars.map escapeChar)).toList =
      chars.flatMap fun char => (escapeChar char).toList := by
    intro chars
    induction chars with
    | nil => rfl
    | cons char chars induction =>
        rw [List.map_cons, String.join_cons, String.toList_append, induction, List.flatMap_cons]
  rw [quote, String.toList_append, String.toList_append, joined]
  rfl

private theorem stringCodes?_quoted (chars : List Char) :
    stringCodes? (chars.flatMap (fun char => (escapeChar char).toList) ++ '"' :: rest) =
      some (chars.map Char.toNat, rest) := by
  induction chars with
  | nil => simp [stringCodes?]
  | cons char chars induction =>
      rw [List.flatMap_cons, List.append_assoc]
      exact stringCodes?_escapeChar char induction

/-- No character is half of a surrogate pair. -/
theorem joinSurrogates?_map_toNat (chars : List Char) :
    joinSurrogates? (chars.map Char.toNat) = some chars := by
  have whole : ∀ char : Char, isHighSurrogate char.toNat = false ∧
      isLowSurrogate char.toNat = false := by
    intro char
    have valid : char.toNat < 0xd800 ∨ 0xdfff < char.toNat ∧ char.toNat < 0x110000 := char.valid
    simp only [isHighSurrogate, isLowSurrogate, Bool.and_eq_false_iff, decide_eq_false_iff_not]
    omega
  induction chars with
  | nil => rfl
  | cons char chars induction =>
      obtain ⟨high, low⟩ := whole char
      cases chars with
      | nil => simp [joinSurrogates?, high, low, Char.ofNat_toNat]
      | cons next chars =>
          rw [List.map_cons, List.map_cons, joinSurrogates?, high, low, ← List.map_cons,
            induction]
          simp [Char.ofNat_toNat]

private theorem string?_quoted (content : String) :
    string? (content.toList.flatMap (fun char => (escapeChar char).toList) ++ '"' :: rest) =
      some (some content, rest) := by
  simp [string?, stringCodes?_quoted, joinSurrogates?_map_toNat]

/-! ### Numbers -/

/-- The characters ahead do not continue a number. -/
def EndsNumber (rest : List Char) : Prop :=
  ∀ char ∈ rest.head?, isDigit char = false ∧ char ≠ '.' ∧ char ≠ 'e' ∧ char ≠ 'E'

private theorem isDigit_eq (char : Char) : isDigit char = char.isDigit := by
  simp [isDigit, Char.isDigit, Char.le_def, UInt32.le_iff_toNat_le]

private theorem isDigit_of_mem_toDigits (value : Nat) {char : Char}
    (member : char ∈ Nat.toDigits 10 value) : isDigit char = true := by
  rw [isDigit_eq]
  exact Nat.isDigit_of_mem_toDigits (by decide) (by decide) member

private theorem EndsNumber.notDigit (ends : EndsNumber rest) :
    rest.takeWhile isDigit = [] ∧ rest.dropWhile isDigit = rest := by
  cases rest with
  | nil => exact ⟨rfl, rfl⟩
  | cons char rest =>
      have other := (ends char rfl).1
      exact ⟨List.takeWhile_cons_of_neg (by simp [other]),
        List.dropWhile_cons_of_neg (by simp [other])⟩

private theorem digits?_toDigits (value : Nat) (ends : EndsNumber rest) :
    digits? (Nat.toDigits 10 value ++ rest) = some (Nat.toDigits 10 value, rest) := by
  have all : ∀ char ∈ Nat.toDigits 10 value, isDigit char = true :=
    fun _ => isDigit_of_mem_toDigits value
  have parts : (Nat.toDigits 10 value ++ rest).span isDigit = (Nat.toDigits 10 value, rest) := by
    rw [List.span_eq_takeWhile_dropWhile, List.takeWhile_append_of_pos all,
      List.dropWhile_append_of_pos all, ends.notDigit.1, ends.notDigit.2, List.append_nil]
  rw [digits?, parts]
  split
  · rename_i none
    exact absurd (congrArg Prod.fst none) Nat.toDigits_ne_nil
  · rfl

/-- The digits of a number start with a zero only if they are it. -/
theorem wholePart?_toDigits (value : Nat) (ends : EndsNumber rest) :
    wholePart? (Nat.toDigits 10 value ++ rest) = some (Nat.toDigits 10 value, rest) := by
  rw [wholePart?, digits?_toDigits value ends]
  split
  · rename_i second more tail same
    have digits : Nat.toDigits 10 value = '0' :: second :: more :=
      (Prod.mk.inj (Option.some.inj same)).1
    cases value with
    | zero => simp [Nat.toDigits_zero] at digits
    | succ value =>
        have head : (Nat.toDigits 10 (value + 1)).head? ≠ some '0' :=
          Numeral.head_toDigits_ne_zero (by decide) (by decide) (Nat.succ_pos value)
        exact absurd (by rw [digits]; rfl) head
  · rename_i none
    cases none
  · rfl

private theorem unsigned?_toDigits (negative : Bool) (value : Nat) (ends : EndsNumber rest)
    (proper : negative = true → 0 < value) :
    unsigned? negative (Nat.toDigits 10 value ++ rest) =
      some (.integer (if negative then -value else value), rest) := by
  have fraction : skipFraction? rest = some (false, rest) := by
    cases rest with
    | nil => rfl
    | cons char rest =>
        have other : char ≠ '.' := (ends char rfl).2.1
        simp [skipFraction?, other]
  have exponent : skipExponent? rest = some (false, rest) := by
    cases rest with
    | nil => rfl
    | cons char rest =>
        have others : char ≠ 'e' ∧ char ≠ 'E' := (ends char rfl).2.2
        simp [skipExponent?, others]
  have digits : Numeral.natural? 10 (Nat.toDigits 10 value) = some value :=
    Numeral.natural?_toDigits (by decide) (by decide) value
  have nonzero : negative = true → value ≠ 0 := fun minus => Nat.ne_of_gt (proper minus)
  simpa [unsigned?, wholePart?_toDigits value ends, fraction, exponent, digits] using nonzero

private theorem number?_signed (value : Int) (ends : EndsNumber rest) :
    number? ((Numeral.signed value).toList ++ rest) = some (.integer value, rest) := by
  cases value with
  | ofNat value =>
      have plain := unsigned?_toDigits false value ends (by simp)
      rw [Numeral.signed, Numeral.decimal, String.toList_ofList]
      obtain ⟨digit, more, same, digits⟩ := Numeral.exists_cons_toDigits value
      have noSign : digit ≠ '-' := by
        rintro rfl
        cases digits '-' List.mem_cons_self
      rw [same] at plain ⊢
      simpa [number?, noSign] using plain
  | negSucc value =>
      have minus := unsigned?_toDigits true (value + 1) ends (by simp)
      rw [Numeral.signed, Numeral.decimal, String.toList_append, String.toList_ofList]
      simpa [number?, Int.negSucc_eq] using minus

/-! ### Values -/

private theorem toList_textAt_array_nil : (textAt level (.array [])).toList = ['[', ']'] := by
  simp [textAt, itemTexts, enclosed]

private theorem toList_textAt_object_nil : (textAt level (.object [])).toList = ['{', '}'] := by
  simp [textAt, fieldTexts, enclosed]

mutual

/-- Whether a value is built from what can be written. -/
def isWritten : Json → Bool
  | .null | .bool _ | .integer _ | .string _ => true
  | .array items => areWritten items
  | .object fields => fieldsWritten fields
  | .other => false

/-- Whether all items are. -/
def areWritten : List Json → Bool
  | [] => true
  | item :: rest => isWritten item && areWritten rest

/-- Whether the values of all fields are. -/
def fieldsWritten : List (String × Json) → Bool
  | [] => true
  | (_, value) :: rest => isWritten value && fieldsWritten rest

end

private theorem skipBlanks_cons {char : Char} (other : isBlank char = false) :
    skipBlanks (char :: text) = char :: text :=
  List.dropWhile_cons_of_neg (by simp [other])

private theorem endsNumber_newLine : EndsNumber ((newLine level).toList ++ rest) := by
  intro char member
  have same : ((newLine level).toList ++ rest).head? = some '\n' := by
    rw [newLine, String.toList_append]
    rfl
  obtain rfl : '\n' = char := Option.some.inj (same.symm.trans member)
  decide

private theorem endsNumber_cons {char : Char}
    (other : isDigit char = false ∧ char ≠ '.' ∧ char ≠ 'e' ∧ char ≠ 'E') :
    EndsNumber (char :: rest) := by
  intro next member
  obtain rfl := Option.some.inj member
  exact other

/-- A number starts with a digit or a minus sign. -/
theorem exists_head_signed (value : Int) : ∃ char more,
    (Numeral.signed value).toList = char :: more ∧ (isDigit char = true ∨ char = '-') := by
  simp only [isDigit_eq]
  exact Numeral.exists_head_signed value

private theorem mem_digits {char : Char} (digit : isDigit char = true) :
    char ∈ ['0', '1', '2', '3', '4', '5', '6', '7', '8', '9'] := by
  have all : ∀ code < 58, 48 ≤ code →
      Char.ofNat code ∈ ['0', '1', '2', '3', '4', '5', '6', '7', '8', '9'] := by decide
  obtain ⟨low, high⟩ : 48 ≤ char.toNat ∧ char.toNat ≤ 57 := by
    simpa [isDigit, Char.le_def, UInt32.le_iff_toNat_le] using digit
  rw [← Char.ofNat_toNat char]
  exact all char.toNat (Nat.lt_succ_of_le high) low

/-- What starts with a digit or a minus sign is read as a number. -/
theorem value?_of_head {char : Char} (starts : isDigit char = true ∨ char = '-') :
    value? (fuel + 1) (char :: text) = number? (char :: text) := by
  rcases starts with digit | rfl
  · have member := mem_digits digit
    simp only [List.mem_cons, List.not_mem_nil, or_false] at member
    rcases member with rfl | rfl | rfl | rfl | rfl | rfl | rfl | rfl | rfl | rfl <;> rfl
  · rfl

private theorem isBlank_eq_false_of_head {char : Char} (starts : isDigit char = true ∨ char = '-') :
    isBlank char = false ∧ char ≠ ']' := by
  rcases starts with digit | rfl
  · have member := mem_digits digit
    simp only [List.mem_cons, List.not_mem_nil, or_false] at member
    rcases member with rfl | rfl | rfl | rfl | rfl | rfl | rfl | rfl | rfl | rfl <;> decide
  · decide

private theorem toList_enclosed {left right : Char} {texts : List String} (some : texts ≠ []) :
    (enclosed left right level texts).toList =
      left :: ((newLine (level + 1)).toList ++
        ((joined ("," ++ newLine (level + 1)) texts).toList ++
          ((newLine level).toList ++ [right]))) := by
  cases texts with
  | nil => exact absurd rfl some
  | cons first more => simp [enclosed]

private theorem toList_joined_cons (separator first : String) {more : List String}
    (some : more ≠ []) :
    (joined separator (first :: more)).toList =
      first.toList ++ (separator.toList ++ (joined separator more).toList) := by
  cases more with
  | nil => exact absurd rfl some
  | cons second more => simp only [joined, String.toList_append, List.append_assoc]

private theorem itemTexts_ne_nil {items : List Json} (some : items ≠ []) :
    itemTexts level items ≠ [] := by
  cases items with
  | nil => exact absurd rfl some
  | cons item items => simp [itemTexts]

private theorem fieldTexts_ne_nil {fields : List (String × Json)} (some : fields ≠ []) :
    fieldTexts level fields ≠ [] := by
  cases fields with
  | nil => exact absurd rfl some
  | cons field fields => simp [fieldTexts]

private theorem toList_textAt_array {items : List Json} (some : items ≠ []) :
    (textAt level (.array items)).toList =
      '[' :: ((newLine (level + 1)).toList ++
        ((joined ("," ++ newLine (level + 1)) (itemTexts (level + 1) items)).toList ++
          ((newLine level).toList ++ [']']))) := by
  rw [textAt, toList_enclosed (itemTexts_ne_nil some)]

private theorem toList_textAt_object {fields : List (String × Json)} (some : fields ≠ []) :
    (textAt level (.object fields)).toList =
      '{' :: ((newLine (level + 1)).toList ++
        ((joined ("," ++ newLine (level + 1)) (fieldTexts (level + 1) fields)).toList ++
          ((newLine level).toList ++ ['}']))) := by
  rw [textAt, toList_enclosed (fieldTexts_ne_nil some)]

/-- What is written for a value starts neither with a blank nor with the end of an array. -/
theorem exists_head_textAt (level : Nat) {json : Json} (written : json.isWritten = true) :
    ∃ char more,
    (textAt level json).toList = char :: more ∧ isBlank char = false ∧ char ≠ ']' := by
  cases json with
  | null => exact ⟨'n', _, by rw [textAt]; rfl, by decide, by decide⟩
  | bool value =>
      cases value with
      | false => exact ⟨'f', _, by rw [textAt]; rfl, by decide, by decide⟩
      | true => exact ⟨'t', _, by rw [textAt]; rfl, by decide, by decide⟩
  | integer value =>
      obtain ⟨char, more, same, starts⟩ := exists_head_signed value
      exact ⟨char, more, by rw [textAt, same], isBlank_eq_false_of_head starts⟩
  | string value => exact ⟨'"', _, by rw [textAt, toList_quote], by decide, by decide⟩
  | array items =>
      cases items with
      | nil => exact ⟨'[', _, toList_textAt_array_nil, by decide, by decide⟩
      | cons item items => exact ⟨'[', _, toList_textAt_array (by simp), by decide, by decide⟩
  | object fields =>
      cases fields with
      | nil => exact ⟨'{', _, toList_textAt_object_nil, by decide, by decide⟩
      | cons field fields =>
          exact ⟨'{', _, toList_textAt_object (by simp), by decide, by decide⟩
  | other => cases written

private theorem objectOf_map (fields : List (String × Json)) :
    objectOf (fields.map fun field => (some field.1, field.2)) = .object fields := by
  have all {convert : Option String × Json → Option (String × Json)}
      (converts : ∀ field : String × Json, convert (some field.1, field.2) = some field) :
      (fields.map fun field => (some field.1, field.2)).mapM convert = some fields := by
    induction fields with
    | nil => rfl
    | cons field fields induction =>
        rw [List.map_cons, List.mapM_cons, converts, induction]
        rfl
  rw [objectOf, all fun _ => rfl]

/-- The first of several values in an array starts with no blank and does not end it. -/
theorem exists_head_itemTexts (level : Nat) {item : Json} (items : List Json)
    (written : item.isWritten = true) : ∃ char more,
    (joined ("," ++ newLine level) (itemTexts level (item :: items))).toList = char :: more ∧
      isBlank char = false ∧ char ≠ ']' := by
  obtain ⟨char, more, same, starts⟩ := exists_head_textAt level written
  rw [itemTexts]
  cases items with
  | nil => exact ⟨char, more, same, starts⟩
  | cons next items =>
      rw [toList_joined_cons _ _ (itemTexts_ne_nil (by simp)), same]
      exact ⟨char, _, rfl, starts⟩

private theorem toList_fieldText (key : String) (value : Json) :
    (quote key ++ ": " ++ textAt level value).toList =
      '"' :: (key.toList.flatMap (fun char => (escapeChar char).toList) ++
        '"' :: ':' :: ' ' :: (textAt level value).toList) := by
  rw [String.toList_append, String.toList_append, toList_quote]
  simp

private theorem exists_head_fieldTexts (level : Nat) (field : String × Json)
    (fields : List (String × Json)) :
    ∃ more, (joined ("," ++ newLine level) (fieldTexts level (field :: fields))).toList =
      '"' :: more := by
  obtain ⟨key, value⟩ := field
  rw [fieldTexts]
  cases fields with
  | nil => exact ⟨_, toList_fieldText key value⟩
  | cons next fields =>
      rw [toList_joined_cons _ _ (fieldTexts_ne_nil (by simp)), toList_fieldText]
      exact ⟨_, rfl⟩

/-- The end of an array does not start its first item. -/
theorem value?_array {item : Char} (noBlank : isBlank item = false) (noEnd : item ≠ ']') :
    value? (fuel + 1) ('[' :: ((newLine level).toList ++ item :: text)) =
      (items? fuel (item :: text)).map fun read => (.array read.1, read.2) := by
  have ahead : skipBlanks ((newLine level).toList ++ item :: text) = item :: text := by
    rw [skipBlanks_newLine, skipBlanks_cons noBlank]
  simp only [value?, skipBlanks_cons (show isBlank '[' = false by decide), ahead]
  split
  · rename_i same
    exact absurd (List.cons.inj same).1 noEnd
  · cases items? fuel (item :: text) <;> rfl

private theorem value?_object :
    value? (fuel + 1) ('{' :: ((newLine level).toList ++ '"' :: text)) =
      (fields? fuel ('"' :: text)).map fun read => (objectOf read.1, read.2) := by
  have ahead : skipBlanks ((newLine level).toList ++ '"' :: text) = '"' :: text := by
    rw [skipBlanks_newLine]
    rfl
  simp only [value?, skipBlanks_cons (show isBlank '{' = false by decide), ahead]
  split
  · rename_i same
    exact absurd (List.cons.inj same).1 (by decide)
  · cases fields? fuel ('"' :: text) <;> rfl

private theorem items?_last {item : Json} (reads : value? fuel text = some (item, rest))
    {behind : List Char} (ends : skipBlanks rest = ']' :: behind) :
    items? (fuel + 1) text = some ([item], behind) := by
  simp [items?, reads, ends]

private theorem items?_next {item : Json} {items : List Json} {next behind : List Char}
    (reads : value? fuel text = some (item, ',' :: next))
    (more : items? fuel next = some (items, behind)) :
    items? (fuel + 1) text = some (item :: items, behind) := by
  have comma : skipBlanks (',' :: next) = ',' :: next := skipBlanks_cons (by decide)
  simp [items?, reads, comma, more]

private theorem fields?_last {key : String} {value : Json} {behind : List Char}
    (reads : value? fuel text = some (value, rest)) (ends : skipBlanks rest = '}' :: behind) :
    fields? (fuel + 1)
        ('"' :: (key.toList.flatMap (fun char => (escapeChar char).toList) ++ '"' :: ':' :: text)) =
      some ([(some key, value)], behind) := by
  have quote : ∀ text, skipBlanks ('"' :: text) = '"' :: text :=
    fun _ => skipBlanks_cons (by decide)
  have colon : skipBlanks (':' :: text) = ':' :: text := skipBlanks_cons (by decide)
  simp [fields?, quote, string?_quoted, colon, reads, ends]

private theorem fields?_next {key : String} {value : Json} {fields : List (Option String × Json)}
    {next behind : List Char} (reads : value? fuel text = some (value, ',' :: next))
    (more : fields? fuel next = some (fields, behind)) :
    fields? (fuel + 1)
        ('"' :: (key.toList.flatMap (fun char => (escapeChar char).toList) ++ '"' :: ':' :: text)) =
      some ((some key, value) :: fields, behind) := by
  have quote : ∀ text, skipBlanks ('"' :: text) = '"' :: text :=
    fun _ => skipBlanks_cons (by decide)
  have colon : skipBlanks (':' :: text) = ':' :: text := skipBlanks_cons (by decide)
  have comma : skipBlanks (',' :: next) = ',' :: next := skipBlanks_cons (by decide)
  simp [fields?, quote, string?_quoted, colon, reads, comma, more]

mutual

/-- What is written for a value is read back. -/
theorem value?_textAt : (json : Json) → json.isWritten = true → ∀ (level fuel : Nat)
    (rest : List Char), (textAt level json).toList.length ≤ fuel → EndsNumber rest →
      value? fuel ((textAt level json).toList ++ rest) = some (json, rest)
  | json, written, level, 0, rest, enough, ends => by
      obtain ⟨char, more, same, -⟩ := exists_head_textAt level written
      rw [same] at enough
      cases enough
  | .null, _, level, fuel + 1, rest, _, _ => by
      rw [textAt]
      rfl
  | .bool true, _, level, fuel + 1, rest, _, _ | .bool false, _, level, fuel + 1, rest, _, _ => by
      rw [textAt]
      rfl
  | .integer value, _, level, fuel + 1, rest, _, ends => by
      rw [textAt]
      obtain ⟨char, more, same, starts⟩ := exists_head_signed value
      rw [← number?_signed value ends, same]
      exact value?_of_head starts
  | .string value, _, level, fuel + 1, rest, _, _ => by
      rw [textAt, toList_quote, List.cons_append, List.append_assoc, List.singleton_append]
      show (do
        let (text, rest) ← string? _
        return ((text.map Json.string).getD .other, rest)) = _
      rw [string?_quoted]
      rfl
  | .array [], _, level, fuel + 1, rest, _, _ => by
      rw [toList_textAt_array_nil]
      rfl
  | .array (item :: items), written, level, fuel + 1, rest, enough, ends => by
      rw [isWritten] at written
      obtain ⟨char, more, same, noBlank, noEnd⟩ := exists_head_itemTexts (level + 1) items
        (Bool.and_eq_true_iff.mp written).1
      rw [toList_textAt_array (by simp)] at enough ⊢
      simp only [List.length_cons, List.length_append] at enough
      have inside := items?_itemTexts (item :: items) (by simp) written (level + 1) level fuel
        rest (by omega)
      simp only [List.cons_append, List.append_assoc, List.nil_append]
      rw [same] at inside ⊢
      rw [List.cons_append, value?_array noBlank noEnd, ← List.cons_append, inside]
      rfl
  | .object [], _, level, fuel + 1, rest, _, _ => by
      rw [toList_textAt_object_nil]
      rfl
  | .object (field :: fields), written, level, fuel + 1, rest, enough, ends => by
      rw [isWritten] at written
      obtain ⟨more, same⟩ := exists_head_fieldTexts (level + 1) field fields
      rw [toList_textAt_object (by simp)] at enough ⊢
      simp only [List.length_cons, List.length_append] at enough
      have inside := fields?_fieldTexts (field :: fields) (by simp) written (level + 1) level fuel
        rest (by omega)
      simp only [List.cons_append, List.append_assoc, List.nil_append]
      rw [same] at inside ⊢
      rw [List.cons_append, value?_object, ← List.cons_append, inside, Option.map_some,
        objectOf_map]
  | .other, written, _, _ + 1, _, _, _ => by cases written

/-- What is written for the items of an array is read back. -/
theorem items?_itemTexts : (items : List Json) → items ≠ [] → areWritten items = true →
    ∀ (level outer fuel : Nat) (rest : List Char),
      (joined ("," ++ newLine level) (itemTexts level items)).toList.length < fuel →
        items? fuel ((joined ("," ++ newLine level) (itemTexts level items)).toList ++
          ((newLine outer).toList ++ ']' :: rest)) = some (items, rest)
  | [], nonempty, _, _, _, _, _, _ => absurd rfl nonempty
  | item :: items, _, written, level, outer, fuel, rest, enough => by
      obtain ⟨first, others⟩ := Bool.and_eq_true_iff.mp written
      obtain ⟨fuel, rfl⟩ := Nat.exists_eq_succ_of_ne_zero (Nat.ne_zero_of_lt enough)
      rw [itemTexts] at enough ⊢
      cases items with
      | nil =>
          exact items?_last
            (value?_textAt item first level _ _ (Nat.le_of_lt_succ enough) endsNumber_newLine)
            (skipBlanks_newLine.trans (skipBlanks_cons (by decide)))
      | cons next items =>
          have positive := length_newLine_pos level
          rw [toList_joined_cons _ _ (itemTexts_ne_nil (by simp)), String.toList_append]
            at enough ⊢
          simp only [List.length_append] at enough
          have later := items?_itemTexts (next :: items) (by simp) others level outer fuel rest
            (by omega)
          simp only [List.append_assoc]
          exact items?_next
            (value?_textAt item first level _ _ (by omega) (endsNumber_cons (by decide)))
            (items?_newLine.trans later)

/-- What is written for the fields of an object is read back. -/
theorem fields?_fieldTexts : (fields : List (String × Json)) → fields ≠ [] →
    fieldsWritten fields = true → ∀ (level outer fuel : Nat) (rest : List Char),
      (joined ("," ++ newLine level) (fieldTexts level fields)).toList.length < fuel →
        fields? fuel ((joined ("," ++ newLine level) (fieldTexts level fields)).toList ++
          ((newLine outer).toList ++ '}' :: rest)) =
            some (fields.map fun field => (some field.1, field.2), rest)
  | [], nonempty, _, _, _, _, _, _ => absurd rfl nonempty
  | (key, value) :: fields, _, written, level, outer, fuel, rest, enough => by
      obtain ⟨first, others⟩ := Bool.and_eq_true_iff.mp written
      obtain ⟨fuel, rfl⟩ := Nat.exists_eq_succ_of_ne_zero (Nat.ne_zero_of_lt enough)
      rw [fieldTexts] at enough ⊢
      cases fields with
      | nil =>
          rw [fieldTexts, joined, toList_fieldText] at enough ⊢
          simp only [List.length_cons, List.length_append] at enough
          simp only [List.cons_append, List.append_assoc]
          exact fields?_last
            (value?_space.trans (value?_textAt value first level _ _ (by omega) endsNumber_newLine))
            (skipBlanks_newLine.trans (skipBlanks_cons (by decide)))
      | cons next fields =>
          have positive := length_newLine_pos level
          rw [toList_joined_cons _ _ (fieldTexts_ne_nil (by simp)), toList_fieldText,
            String.toList_append] at enough ⊢
          simp only [List.length_cons, List.length_append] at enough
          have later := fields?_fieldTexts (next :: fields) (by simp) others level outer fuel
            rest (by omega)
          simp only [List.cons_append, List.append_assoc]
          exact fields?_next (value?_space.trans
              (value?_textAt value first level _ _ (by omega) (endsNumber_cons (by decide))))
            (fields?_newLine.trans later)

end

end Json

end ParametricGrammar
