import Mathlib.Tactic.Common
import ParametricGrammar.Numeral
/-!
# Spelled numbers

A numeral reads back as the number that it spells. Digits are read one after the other onto the
value before them, so the proofs follow the last digit.
-/

namespace ParametricGrammar

namespace Numeral

variable {base value : Nat}

private theorem digit?_digitChar {digit : Nat} (small : digit < 16) :
    digit? digit.digitChar = some digit := by
  have all : ∀ digit < 16, digit? (Nat.digitChar digit) = some digit := by decide
  exact all digit small

/-- Digits are read alike in either case. -/
theorem digit?_toUpper {digit : Nat} (small : digit < 16) :
    digit? digit.digitChar.toUpper = some digit := by
  have all : ∀ digit < 16, digit? (Nat.digitChar digit).toUpper = some digit := by decide
  exact all digit small

private theorem extend?_append (front rest : List Char) :
    extend? base value (front ++ rest) =
      (extend? base value front).bind fun value => extend? base value rest := by
  induction front generalizing value with
  | nil => rfl
  | cons digit front induction =>
      rw [List.cons_append, extend?, extend?]
      split
      · rfl
      · split
        · exact induction
        · rfl

theorem isSome_digit?_of_extend? {digits : List Char} {result : Nat}
    (reads : extend? base value digits = some result) {digit : Char} (member : digit ∈ digits) :
    (digit? digit).isSome = true := by
  induction digits generalizing value with
  | nil => cases member
  | cons first digits induction =>
      rw [extend?] at reads
      split at reads
      · cases reads
      · rename_i spells
        split at reads
        · rcases List.mem_cons.mp member with rfl | later
          · simp [spells]
          · exact induction reads later
        · cases reads

/-- Leading zeros do not count. -/
theorem extend?_replicate_zero (positive : 0 < base) (count : Nat) (digits : List Char) :
    extend? base 0 (List.replicate count '0' ++ digits) = extend? base 0 digits := by
  induction count with
  | zero => rfl
  | succ count induction =>
      rw [List.replicate_succ, List.cons_append, extend?]
      show (if 0 < base then extend? base (0 * base + 0) _ else none) = _
      rw [if_pos positive, Nat.zero_mul]
      exact induction

/-- Digits of a number that are spelled in a way that reads back are read as the number. -/
theorem extend?_map_toDigits {spell : Char → Char} (large : 1 < base)
    (reads : ∀ digit < base, digit? (spell (Nat.digitChar digit)) = some digit) (value : Nat) :
    extend? base 0 ((Nat.toDigits base value).map spell) = some value := by
  induction value using Nat.strongRecOn with
  | ind value induction =>
      rw [Nat.toDigits_eq_if large]
      split
      · rename_i small
        show extend? base 0 [spell _] = _
        rw [extend?, reads value small]
        simp [small, extend?]
      · rename_i long
        have last : value % base < base := Nat.mod_lt _ (by omega)
        have front := induction (value / base) (Nat.div_lt_self (by omega) large)
        rw [List.map_append, extend?_append, front]
        show extend? base (value / base) [spell _] = _
        rw [extend?, reads _ last]
        simp only [last, if_true, extend?, Nat.div_add_mod']

private theorem extend?_toDigits (large : 1 < base) (few : base ≤ 16) (value : Nat) :
    extend? base 0 (Nat.toDigits base value) = some value := by
  have reads : extend? base 0 ((Nat.toDigits base value).map id) = some value :=
    extend?_map_toDigits large
      (fun digit small => digit?_digitChar (Nat.lt_of_lt_of_le small few)) value
  rwa [List.map_id] at reads

theorem natural?_of_ne_nil {digits : List Char} (some : digits ≠ []) :
    natural? base digits = extend? base 0 digits := by
  cases digits with
  | nil => exact absurd rfl some
  | cons => rfl

theorem natural?_toDigits (large : 1 < base) (few : base ≤ 16) (value : Nat) :
    natural? base (Nat.toDigits base value) = some value := by
  rw [natural?_of_ne_nil Nat.toDigits_ne_nil, extend?_toDigits large few]

/-- A number has a leading zero only if it is zero. -/
theorem head_toDigits_ne_zero (large : 1 < base) (few : base ≤ 16) (positive : 0 < value) :
    (Nat.toDigits base value).head? ≠ some '0' := by
  induction value using Nat.strongRecOn with
  | ind value induction =>
      rw [Nat.toDigits_eq_if large]
      split
      · rename_i small
        intro zero
        have digit := digit?_digitChar (Nat.lt_of_lt_of_le small few)
        rw [Option.some.inj zero] at digit
        exact Nat.ne_of_lt positive (Option.some.inj digit)
      · rename_i long
        have front := induction (value / base) (Nat.div_lt_self (by omega) large)
          (Nat.div_pos (by omega) (by omega))
        obtain ⟨digit, more, same⟩ :=
          List.exists_cons_of_ne_nil (Nat.toDigits_ne_nil (n := value / base) (b := base))
        rw [same] at front ⊢
        exact front

/-! ### Integers -/

theorem toList_signed (value : Int) :
    (signed value).toList =
      (if value < 0 then ['-'] else []) ++ Nat.toDigits 10 value.natAbs := by
  cases value with
  | ofNat value => simp [signed, decimal]
  | negSucc value =>
      rw [signed, decimal, if_pos (Int.negSucc_lt_zero value), String.toList_append,
        String.toList_ofList (l := Nat.toDigits 10 (value + 1))]
      rfl

/-- The digits of a number, of which there is at least one. -/
theorem exists_cons_toDigits (value : Nat) : ∃ digit more,
    Nat.toDigits 10 value = digit :: more ∧ ∀ char ∈ digit :: more, char.isDigit = true := by
  obtain ⟨digit, more, same⟩ :=
    List.exists_cons_of_ne_nil (Nat.toDigits_ne_nil (n := value) (b := 10))
  refine ⟨digit, more, same, ?_⟩
  rw [← same]
  exact fun _ => Nat.isDigit_of_mem_toDigits (by decide) (by decide)

/-- A number starts with a digit or a minus sign. -/
theorem exists_head_signed (value : Int) : ∃ char more,
    (signed value).toList = char :: more ∧ (char.isDigit = true ∨ char = '-') := by
  obtain ⟨digit, more, same, digits⟩ := exists_cons_toDigits value.natAbs
  rw [toList_signed, same]
  split
  · exact ⟨_, _, rfl, .inr rfl⟩
  · exact ⟨_, _, rfl, .inl (digits digit List.mem_cons_self)⟩

theorem integer?_signed (value : Int) : integer? (signed value).toList = some value := by
  rw [toList_signed]
  split
  · rename_i negative
    rw [List.singleton_append, integer?, natural?_toDigits (by decide) (by decide)]
    exact congrArg some (show -(value.natAbs : Int) = value by omega)
  · rename_i positive
    rw [List.nil_append, integer?, natural?_toDigits (by decide) (by decide)]
    · exact congrArg some (by simp only [Int.ofNat_eq_natCast]; omega)
    · intro digits same
      have minus := Nat.isDigit_of_mem_toDigits (b := 10) (by decide) (by decide)
        (same ▸ List.mem_cons_self : '-' ∈ Nat.toDigits 10 value.natAbs)
      cases minus

/-- A 32-bit numeral reads back. -/
theorem word?_decimal (value : UInt32) : word? (decimal value.toNat).toList = some value := by
  rw [decimal, String.toList_ofList, word?, natural?_toDigits (by decide) (by decide)]
  simp [value.toNat_lt_size]

end Numeral

end ParametricGrammar
