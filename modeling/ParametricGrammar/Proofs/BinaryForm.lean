import Mathlib.Tactic.Linarith
import ParametricGrammar.Grammar.Binary
/-!
# Reading back the binary form

A written value is read back whatever follows it, and bytes that end inside of it are reported as
ending too early. One law says both of a reader, the bytes and the value; it is kept by running one
reader after another, and the law of grammars is put together from those of their parts.

An expression is read with a bound on how deep it nests. The law is therefore about bytes of at most
some length: an expression spends a byte on each level, so a bound that covers the bytes covers the
nesting.
-/

namespace ParametricGrammar

namespace Binary

variable {α β : Type} {limit : Nat}

/-! ### The law -/

/-- A reader takes a value off the bytes written for it, and misses bytes when they are cut short,
as long as there are at most so many. -/
structure Decodes (limit : Nat) (read : Reader α) (bytes : Bytes) (value : α) : Prop where
  whole : bytes.length ≤ limit → ∀ rest, read (bytes ++ rest) = .ok (value, rest)
  short : ∀ {part : Bytes}, part <+: bytes → part ≠ bytes → part.length ≤ limit →
    read part = .error .endOfBuffer

namespace Decodes

private theorem of_le {larger : Nat} {read : Reader α} {bytes : Bytes} {value : α}
    (law : Decodes larger read bytes value) (below : limit ≤ larger) :
    Decodes limit read bytes value where
  whole bound := law.whole (bound.trans below)
  short isPart differs bound := law.short isPart differs (bound.trans below)

theorem pure (value : α) : Decodes limit (pure value) [] value where
  whole _ _ := rfl
  short isPart differs _ := absurd (List.prefix_nil.mp isPart) differs

/-- The second of two readers only meets the bytes that the first one leaves. -/
theorem bindBehind {first : Reader α} {second : α → Reader β} {front back : Bytes} {value : α}
    {result : β} (before : Decodes limit first front value)
    (behind : Decodes (limit - front.length) (second value) back result) :
    Decodes limit (first >>= second) (front ++ back) result where
  whole bound rest := by
    rw [List.length_append] at bound
    show ((first (front ++ back ++ rest)) >>= fun pair => second pair.1 pair.2) = _
    rw [List.append_assoc, before.whole (by omega)]
    exact behind.whole (by omega) rest
  short := by
    intro part isPart differs bound
    show (first part >>= fun pair => second pair.1 pair.2) = _
    -- The cut is inside of the first value or behind it.
    by_cases inside : part <+: front ∧ part ≠ front
    · rw [before.short inside.1 inside.2 bound]
      rfl
    · obtain ⟨part, rfl⟩ : front <+: part := by
        rcases List.prefix_or_prefix_of_prefix isPart (List.prefix_append front back) with
          inFront | past
        · have same : part = front := Classical.not_not.mp fun differs => inside ⟨inFront, differs⟩
          exact same ▸ List.prefix_refl part
        · exact past
      rw [List.length_append] at bound
      rw [before.whole (by omega)]
      have isPart : part <+: back := (List.prefix_append_right_inj front).mp isPart
      have differs : part ≠ back := fun same => differs (congrArg (front ++ ·) same)
      have bound : part.length ≤ limit - front.length := by omega
      exact behind.short isPart differs bound

private theorem bind {first : Reader α} {second : α → Reader β} {front back : Bytes} {value : α}
    {result : β} (before : Decodes limit first front value)
    (behind : Decodes limit (second value) back result) :
    Decodes limit (first >>= second) (front ++ back) result :=
  before.bindBehind (behind.of_le (Nat.sub_le _ _))

private theorem map {read : Reader α} {bytes : Bytes} {value : α}
    (law : Decodes limit read bytes value) (f : α → β) :
    Decodes limit (do return f (← read)) bytes (f value) := by
  rw [← List.append_nil bytes]
  exact law.bind (Decodes.pure (f value))

end Decodes

/-! ### Numbers -/

private theorem decodes_byte (value : UInt8) : Decodes limit byte [value] value where
  whole _ _ := rfl
  short := by
    intro part isPart differs _
    cases part with
    | nil => rfl
    | cons first part =>
        obtain ⟨rfl, behind⟩ := List.cons_prefix_cons.mp isPart
        obtain rfl := List.prefix_nil.mp behind
        exact absurd rfl differs

private theorem toNat_ofNat {value : Nat} (small : value < 256) :
    (UInt8.ofNat value).toNat = value :=
  Nat.mod_eq_of_lt small

/-- A number is read with so many groups behind its first one and a largest last group when it is
small enough for them. -/
theorem decodes_groups {largest : Nat} (one : largest < 128) (groups : Nat) {fuel value : Nat}
    (small : value < 128 ^ groups * (largest + 1)) (enough : value < 128 ^ (fuel + 1)) :
    Decodes limit (readGroups largest (groups + 1)) (numberGroups fuel value) value := by
  induction groups generalizing fuel value with
  | zero =>
      have small : value < largest + 1 := by simpa using small
      have group : numberGroups fuel value = [UInt8.ofNat value] := by
        cases fuel with
        | zero => rfl
        | succ fuel => rw [numberGroups, if_pos (by omega)]
      have toNat : (UInt8.ofNat value).toNat = value := toNat_ofNat (by omega)
      have last : UInt8.ofNat value < 128 := by
        rw [UInt8.lt_iff_toNat_lt, toNat]
        exact Nat.lt_of_lt_of_le small one
      rw [group, ← List.append_nil [UInt8.ofNat value], readGroups]
      refine (decodes_byte _).bind ?_
      rw [if_pos last, if_neg (by omega), toNat]
      exact Decodes.pure value
  | succ groups induction =>
      rw [readGroups]
      by_cases last : value < 128
      · have group : numberGroups fuel value = [UInt8.ofNat value] := by
          cases fuel with
          | zero => rfl
          | succ fuel => rw [numberGroups, if_pos last]
        have toNat : (UInt8.ofNat value).toNat = value := toNat_ofNat (by omega)
        have isLast : UInt8.ofNat value < 128 := by
          rw [UInt8.lt_iff_toNat_lt, toNat]
          exact last
        rw [group, ← List.append_nil [UInt8.ofNat value]]
        refine (decodes_byte _).bind ?_
        rw [if_pos isLast, if_neg (by omega), toNat]
        exact Decodes.pure value
      · obtain ⟨fuel, rfl⟩ : ∃ less, fuel = less + 1 := by
          refine Nat.exists_eq_succ_of_ne_zero fun none => ?_
          rw [none] at enough
          omega
        have toNat : (UInt8.ofNat (value % 128 + 128)).toNat = value % 128 + 128 :=
          toNat_ofNat (by omega)
        have more : ¬ UInt8.ofNat (value % 128 + 128) < 128 := by
          rw [UInt8.lt_iff_toNat_lt, toNat]
          exact Nat.not_lt.mpr (Nat.le_add_left 128 _)
        have higher : Decodes limit (readGroups largest (groups + 1))
            (numberGroups fuel (value / 128)) (value / 128) := by
          refine induction ?_ ?_
          · rw [pow_succ, mul_right_comm] at small
            exact Nat.div_lt_of_lt_mul (by linarith)
          · rw [pow_succ] at enough
            exact Nat.div_lt_of_lt_mul (by linarith)
        rw [numberGroups, if_neg last, ← List.singleton_append]
        refine (decodes_byte _).bind ?_
        rw [if_neg more, toNat]
        have sum : value % 128 + 128 - 128 + 128 * (value / 128) = value := by
          rw [Nat.add_sub_cancel, Nat.mod_add_div]
        have read := higher.map fun higher => value % 128 + 128 - 128 + 128 * higher
        rwa [sum] at read

private theorem decodes_number {largest : Nat} (one : largest < 128) (groups : Nat) {value : Nat}
    (small : value < 128 ^ groups * (largest + 1)) :
    Decodes limit (readGroups largest (groups + 1)) (number value) value :=
  decodes_groups one groups small
    (Nat.lt_of_lt_of_le (Nat.lt_pow_self (by decide)) (Nat.pow_le_pow_right (by decide) (by omega)))

private theorem decodes_word (value : UInt32) :
    Decodes limit readWord (number value.toNat) value := by
  have digits : Decodes limit (readGroups 15 5) (number value.toNat) value.toNat :=
    decodes_number (by decide) 4 value.toNat_lt
  have read := digits.map UInt32.ofNat
  rwa [UInt32.ofNat_toNat] at read

private theorem decodes_length {value : Nat} (small : value < 2 ^ 64) :
    Decodes limit readLength (number value) value :=
  decodes_number (by decide) 9 small

private theorem unzigzag_zigzag (value : Int32) : unzigzag (zigzag value) = value := by
  have lower := value.le_toInt
  rw [zigzag]
  split
  · rename_i positive
    have half : value.toInt.toNat * 2 / 2 = value.toInt.toNat := Nat.mul_div_cancel _ (by decide)
    rw [unzigzag, if_pos (by omega), half, ← Int32.ofInt_eq_ofNat, Int.toNat_of_nonneg positive,
      Int32.ofInt_toInt]
  · have half : (-((((-value.toInt).toNat * 2 - 1) / 2 : Nat) : Int) - 1) = value.toInt := by omega
    rw [unzigzag, if_neg (by omega), half, Int32.ofInt_toInt]

private theorem decodes_int32 (value : Int32) : Decodes limit readInt32 (int32 value) value := by
  have small : zigzag value < 128 ^ 4 * (15 + 1) := by
    have lower := value.le_toInt
    have upper := value.toInt_lt
    rw [zigzag]
    split <;> omega
  have digits : Decodes limit (readGroups 15 5) (number (zigzag value)) (zigzag value) :=
    decodes_number (by decide) 4 small
  have read := digits.map unzigzag
  rwa [unzigzag_zigzag] at read

/-! ### Marks, lists and texts -/

private theorem decodes_bool (value : Bool) : Decodes limit readBool (bool value) value := by
  cases value with
  | false => exact (decodes_byte 0).bind (Decodes.pure false)
  | true => exact (decodes_byte 1).bind (Decodes.pure true)

private theorem decodes_option {write : α → Bytes} {read : Reader α} {value : Option α}
    (inner : ∀ item ∈ value, Decodes limit read (write item) item) :
    Decodes limit (readOption read) (option write value) value := by
  cases value with
  | none => exact (decodes_byte 0).bind (Decodes.pure none)
  | some item => exact (decodes_byte 1).bind ((inner item rfl).map some)

private theorem decodes_items {write : α → Bytes} {read : Reader α} {items : List α}
    (each : ∀ item ∈ items, Decodes limit read (write item) item) :
    Decodes limit (readItems read items.length) (items.flatMap write) items := by
  induction items with
  | nil => exact Decodes.pure []
  | cons item items induction =>
      rw [List.flatMap_cons]
      refine (each item List.mem_cons_self).bind ?_
      exact (induction fun other among => each other (List.mem_cons_of_mem item among)).map
        (item :: ·)

private theorem decodes_list {write : α → Bytes} {read : Reader α} {items : List α}
    (small : items.length < 2 ^ 64)
    (each : ∀ item ∈ items, Decodes limit read (write item) item) :
    Decodes limit (readList read) (list write items) items :=
  (decodes_length small).bind (decodes_items each)

private theorem decodes_index [DecidableEq α] {all : List α} {item : α} (among : item ∈ all)
    (few : all.length ≤ 2 ^ 32) : Decodes limit (readIndex all) (index all item) item := by
  have place : all.idxOf item < all.length := List.idxOf_lt_length_of_mem among
  have small : all.idxOf item < UInt32.size := Nat.lt_of_lt_of_le place few
  have found : all[(UInt32.ofNat (all.idxOf item)).toNat]? = some item := by
    rw [UInt32.toNat_ofNat_of_lt' small, List.getElem?_eq_getElem place, List.getElem_idxOf]
  have word : Decodes limit readWord _ (UInt32.ofNat (all.idxOf item)) := decodes_word _
  rw [UInt32.toNat_ofNat_of_lt' small] at word
  rw [index, ← List.append_nil (number _), readIndex]
  refine word.bind ?_
  rw [found]
  exact Decodes.pure item

private theorem decodes_bytes (bytes : Bytes) :
    Decodes limit (readBytes bytes.length) bytes bytes where
  whole _ rest := by
    rw [readBytes, if_pos (by rw [List.length_append]; omega), List.take_left, List.drop_left]
  short := by
    intro part isPart differs _
    have shorter : part.length < bytes.length :=
      Nat.lt_of_le_of_ne isPart.length_le fun same => differs (isPart.eq_of_length same)
    rw [readBytes, if_neg (Nat.not_le.mpr shorter)]

private theorem toList_loop (bytes : ByteArray) (place : Nat) (before : Bytes) :
    ByteArray.toList.loop bytes place before =
      before.reverse ++ bytes.data.toList.drop place := by
  induction rest : bytes.size - place generalizing place before with
  | zero =>
      have past : bytes.size ≤ place := by omega
      rw [ByteArray.toList.loop, if_neg (by omega), List.drop_eq_nil_of_le past, List.append_nil]
  | succ rest induction =>
      have inside : place < bytes.size := by omega
      have next : bytes.get! place = bytes.data.toList[place] := by
        show bytes.data[place]! = _
        rw [getElem!_pos bytes.data place inside, Array.getElem_toList]
      rw [ByteArray.toList.loop, if_pos inside, induction (place + 1) _ (by omega), next,
        List.drop_eq_getElem_cons inside, List.reverse_cons, List.append_assoc]
      rfl

private theorem decodes_text {value : String} (small : value.utf8ByteSize < 2 ^ 64) :
    Decodes limit readText (text value) value := by
  have bytes : value.toUTF8.toList = value.toByteArray.data.toList :=
    toList_loop value.toByteArray 0 []
  have size : value.toUTF8.toList.length = value.utf8ByteSize := by
    rw [bytes]
    rfl
  have back : String.fromUTF8? ⟨value.toUTF8.toList.toArray⟩ = some value := by
    rw [bytes, Array.toArray_toList]
    exact dif_pos value.isValidUTF8
  rw [text, readText]
  refine (decodes_length small).bind ?_
  have content : Decodes limit _ value.toUTF8.toList _ := decodes_bytes value.toUTF8.toList
  rw [size] at content
  rw [← List.append_nil value.toUTF8.toList]
  refine content.bind ?_
  rw [back]
  exact Decodes.pure value

end Binary

open Binary (Decodes)

variable {limit : Nat}

/-! ### Parameters and bindings -/

private theorem Context.decodes (context : Context) :
    Decodes limit (Binary.readIndex all) (Binary.index all context) context :=
  Binary.decodes_index (by cases context <;> decide) (by decide)

private theorem Chomping.decodes (chomping : Chomping) :
    Decodes limit (Binary.readIndex all) (Binary.index all chomping) chomping :=
  Binary.decodes_index (by cases chomping <;> decide) (by decide)

private theorem Formal.decodes (formal : Formal) :
    Decodes limit (Binary.readIndex all) (Binary.index all formal) formal :=
  Binary.decodes_index (by cases formal <;> decide) (by decide)

private theorem Value.decodes (value : Value) : Decodes limit Value.read value.toBytes value := by
  cases value with
  | int value => exact (Binary.decodes_word 0).bind ((Binary.decodes_int32 value).map Value.int)
  | context value => exact (Binary.decodes_word 1).bind (value.decodes.map Value.context)
  | chomping value => exact (Binary.decodes_word 2).bind (value.decodes.map Value.chomping)

private theorem Binding.decodes (binding : Binding) :
    Decodes limit Binding.read binding.toBytes binding := by
  cases binding with
  | literal value => exact (Binary.decodes_word 0).bind (value.decodes.map Binding.literal)
  | context => exact (Binary.decodes_word 1).bind (Decodes.pure Binding.context)
  | chomping => exact (Binary.decodes_word 2).bind (Decodes.pure Binding.chomping)
  | indent n m offset =>
      rw [Binding.toBytes, List.append_assoc]
      exact (Binary.decodes_word 3).bind ((Binary.decodes_bool n).bind ((Binary.decodes_bool m).bind
        ((Binary.decodes_int32 offset).map (Binding.indent n m))))
  | inFlow => exact (Binary.decodes_word 4).bind (Decodes.pure Binding.inFlow)

private theorem Parameters.decodes (parameters : Parameters) :
    Decodes limit Parameters.read parameters.toBytes parameters := by
  obtain ⟨n, m, c, t⟩ := parameters
  rw [Parameters.toBytes, List.append_assoc, List.append_assoc]
  exact (Binary.decodes_option fun value _ => Binary.decodes_int32 value).bind
    ((Binary.decodes_option fun value _ => Binary.decodes_int32 value).bind
      ((Binary.decodes_option fun value _ => value.decodes).bind
        ((Binary.decodes_option fun value _ => value.decodes).map (Parameters.mk n m c))))

private theorem Bound.decodes (bound : Bound) : Decodes limit Bound.read bound.toBytes bound := by
  cases bound with
  | fixed count => exact (Binary.decodes_word 0).bind ((Binary.decodes_word count).map Bound.fixed)
  | computed binding =>
      exact (Binary.decodes_word 1).bind (binding.decodes.map Bound.computed)

private theorem CodeRange.decodes (range : CodeRange) :
    Decodes limit CodeRange.read range.toBytes range :=
  (Binary.decodes_word range.first).bind ((Binary.decodes_word range.last).map _)

/-! ### Expressions -/

namespace Node

mutual

/-- The texts and lists of an expression have lengths that a number of the binary form holds. -/
def LengthsFit : Node → Prop
  | .empty | .startOfLine | .endOfInput => True
  | .literal text => text.utf8ByteSize < 2 ^ 64
  | .chars set => set.ranges.length < 2 ^ 64
  | .reference name arguments => name.utf8ByteSize < 2 ^ 64 ∧ arguments.length < 2 ^ 64
  | .sequence children | .first children => children.length < 2 ^ 64 ∧ LengthsFitInAll children
  | .repeated child _ _ | .lookahead child _ | .lookbehind child | .detectIndentation _ child =>
      LengthsFit child
  | .cases arms => arms.length < 2 ^ 64 ∧ LengthsFitInArms arms

/-- The lengths of the expressions of a list fit. -/
def LengthsFitInAll : List Node → Prop
  | [] => True
  | node :: rest => LengthsFit node ∧ LengthsFitInAll rest

/-- The lengths of the bodies of cases fit. -/
def LengthsFitInArms : List (Parameters × Node) → Prop
  | [] => True
  | (_, body) :: rest => LengthsFit body ∧ LengthsFitInArms rest

end

private theorem LengthsFitInAll.of_mem {nodes : List Node} (fit : LengthsFitInAll nodes)
    {node : Node} (among : node ∈ nodes) : node.LengthsFit := by
  induction nodes with
  | nil => cases among
  | cons first rest induction =>
      rcases List.mem_cons.mp among with rfl | later
      · exact fit.1
      · exact induction fit.2 later

private theorem LengthsFitInArms.of_mem {arms : List (Parameters × Node)}
    (fit : LengthsFitInArms arms) {arm : Parameters × Node} (among : arm ∈ arms) :
    arm.2.LengthsFit := by
  induction arms with
  | nil => cases among
  | cons first rest induction =>
      rcases List.mem_cons.mp among with rfl | later
      · exact fit.1
      · exact induction fit.2 later

private theorem allToBytes_eq (nodes : List Node) : allToBytes nodes = nodes.flatMap toBytes := by
  induction nodes with
  | nil => rfl
  | cons node rest induction => rw [allToBytes, induction, List.flatMap_cons]

private theorem armsToBytes_eq (arms : List (Parameters × Node)) :
    armsToBytes arms = arms.flatMap fun arm => arm.1.toBytes ++ arm.2.toBytes := by
  induction arms with
  | nil => rfl
  | cons arm rest induction => rw [armsToBytes, induction, List.flatMap_cons]

private theorem toBytes_ne_nil (node : Node) : node.toBytes ≠ [] := by
  cases node <;> simp [toBytes]

/-- An expression is read back, and missed when it is cut short, with any bound on its nesting that
covers the bytes ahead. -/
theorem decodes (depth : Nat) {node : Node} (fits : node.LengthsFit) :
    Decodes depth (read depth) node.toBytes node := by
  induction depth generalizing node with
  | zero =>
      refine ⟨fun bound => ?_, fun _ _ _ => rfl⟩
      exact absurd (List.length_eq_zero_iff.mp (Nat.le_zero.mp bound)) node.toBytes_ne_nil
  | succ depth induction =>
      have inner (child : Node) (fits : child.LengthsFit) :
          Decodes depth (read depth) child.toBytes child :=
        induction fits
      rw [read]
      cases node with
      | empty => exact (Binary.decodes_word 0).bind (Decodes.pure Node.empty)
      | startOfLine => exact (Binary.decodes_word 1).bind (Decodes.pure Node.startOfLine)
      | endOfInput => exact (Binary.decodes_word 2).bind (Decodes.pure Node.endOfInput)
      | literal text =>
          exact (Binary.decodes_word 3).bind ((Binary.decodes_text fits).map Node.literal)
      | chars set =>
          have ranges : Decodes (depth + 1) _ _ set.ranges :=
            Binary.decodes_list fits fun range _ => range.decodes
          exact (Binary.decodes_word 4).bind (ranges.map fun ranges => Node.chars ⟨ranges⟩)
      | reference name arguments =>
          have bindings : Decodes (depth + 1) _ _ arguments :=
            Binary.decodes_list fits.2 fun binding _ => binding.decodes
          exact (Binary.decodes_word 5).bind
            ((Binary.decodes_text fits.1).bind (bindings.map (Node.reference name)))
      | sequence children =>
          have items := Binary.decodes_list fits.1
            fun child among => inner child (fits.2.of_mem among)
          rw [toBytes, allToBytes_eq]
          exact (Binary.decodes_word 6).bindBehind (items.map Node.sequence)
      | first children =>
          have items := Binary.decodes_list fits.1
            fun child among => inner child (fits.2.of_mem among)
          rw [toBytes, allToBytes_eq]
          exact (Binary.decodes_word 7).bindBehind (items.map Node.first)
      | repeated child minimum maximum =>
          have greatest : Decodes depth _ _ maximum :=
            Binary.decodes_option fun bound _ => bound.decodes
          rw [toBytes, List.cons_append, List.cons_append, List.append_assoc]
          exact (Binary.decodes_word 8).bindBehind ((inner child fits).bind
            (minimum.decodes.bind (greatest.map (Node.repeated child minimum))))
      | lookahead child positive =>
          rw [toBytes, List.cons_append]
          exact (Binary.decodes_word 9).bindBehind
            ((inner child fits).bind ((Binary.decodes_bool positive).map (Node.lookahead child)))
      | lookbehind child =>
          exact (Binary.decodes_word 10).bindBehind ((inner child fits).map Node.lookbehind)
      | detectIndentation minimum child =>
          exact (Binary.decodes_word 11).bindBehind
            (minimum.decodes.bind ((inner child fits).map (Node.detectIndentation minimum)))
      | cases arms =>
          have arm (arm : Parameters × Node) (among : arm ∈ arms) :
              Decodes depth (do let pattern ← Parameters.read; return (pattern, ← read depth))
                (arm.1.toBytes ++ arm.2.toBytes) arm :=
            arm.1.decodes.bind ((inner arm.2 (fits.2.of_mem among)).map fun body => (arm.1, body))
          rw [toBytes, armsToBytes_eq]
          exact (Binary.decodes_word 12).bindBehind
            ((Binary.decodes_list fits.1 arm).map Node.cases)

end Node

/-! ### Grammars -/

/-- The lists of a production have lengths that a number of the binary form holds. -/
def Production.LengthsFit (production : Production) : Prop :=
  production.formals.length < 2 ^ 64 ∧ production.body.LengthsFit

private theorem Production.decodes {production : Production} (fits : production.LengthsFit) :
    Decodes limit (Production.read limit) production.toBytes production := by
  rw [Production.toBytes, List.append_assoc]
  exact (Binary.decodes_option fun number _ => Binary.decodes_word number).bind
    ((Binary.decodes_list fits.1 fun formal _ => formal.decodes).bind
      ((Node.decodes limit fits.2).map (Production.mk production.number production.formals)))

namespace Grammar

/-- The names and lists of a grammar have lengths that a number of the binary form holds. -/
def LengthsFit (grammar : Grammar) : Prop :=
  grammar.entries.length < 2 ^ 64 ∧
    ∀ entry ∈ grammar.entries, entry.1.utf8ByteSize < 2 ^ 64 ∧ entry.2.LengthsFit

/-- The reader of grammars is a reader of entries whose bound on nesting is the number of bytes. -/
theorem read_decodes {grammar : Grammar} (fits : grammar.LengthsFit) (bytes : Binary.Bytes) :
    ∃ reader, Grammar.read bytes = reader bytes ∧
      Decodes bytes.length reader grammar.toBytes grammar := by
  have entry (entry : String × Production) (among : entry ∈ grammar.entries) :
      Decodes bytes.length
        (do let name ← Binary.readText; return (name, ← Production.read bytes.length))
        (Binary.text entry.1 ++ entry.2.toBytes) entry :=
    (Binary.decodes_text (fits.2 entry among).1).bind
      ((Production.decodes (fits.2 entry among).2).map fun production => (entry.1, production))
  have collected := (Binary.decodes_list fits.1 entry).map ofList
  rw [ofList_entries] at collected
  refine ⟨_, ?_, collected⟩
  rfl

/-- The bytes of a grammar give the grammar back whatever follows them, and are reported as ending
too early wherever they are cut. -/
theorem ofBytes_toBytes {grammar : Grammar} (fits : grammar.LengthsFit) :
    (∀ rest, ofBytes (grammar.toBytes ++ rest) = .ok grammar) ∧
      ∀ part, part <+: grammar.toBytes → part ≠ grammar.toBytes →
        ofBytes part = .error .endOfBuffer := by
  constructor
  · intro rest
    obtain ⟨reader, same, law⟩ := read_decodes fits (grammar.toBytes ++ rest)
    rw [ofBytes, same, law.whole (by rw [List.length_append]; omega)]
    rfl
  · intro part isPart differs
    obtain ⟨reader, same, law⟩ := read_decodes fits part
    rw [ofBytes, same, law.short isPart differs (Nat.le_refl _)]
    rfl

/-- A grammar of one production that reads an indentation column. -/
def indented : Grammar :=
  ofList [("indented", {
    formals := [.n],
    body := .repeated (.literal " ") (.computed (.indent true false (-1))) none })]

theorem ofBytes_indented :
    indented.LengthsFit ∧
      (∀ rest, ofBytes (indented.toBytes ++ rest) = .ok indented) ∧
        ∀ part, part <+: indented.toBytes → part ≠ indented.toBytes →
          ofBytes part = .error .endOfBuffer := by
  have fits : indented.LengthsFit := by
    refine ⟨by decide, fun entry among => ?_⟩
    obtain rfl := List.mem_singleton.mp among
    exact ⟨by decide, by decide, show (" " : String).utf8ByteSize < 2 ^ 64 by decide⟩
  exact ⟨fits, ofBytes_toBytes fits⟩

end Grammar

end ParametricGrammar
