import Mathlib.Order.Lattice
import ParametricGrammar.Grammar.Json
import ParametricGrammar.Proofs.JsonText
/-!
# Reading back the JSON form

What is written for a grammar is read back if and only if its arrays and objects nest no deeper
than the reader allows. One law says so of a reader, the JSON and the value; it is put together for
grammars from the laws of their parts.

Records may be read from JSON of other shapes, so another law says that whatever a reader accepts
within a budget is written within it again.
-/

namespace ParametricGrammar

namespace Json

variable {α β : Type} {budget : Nat}

private theorem ofText?_text {json : Json} (written : json.isWritten = true) :
    ofText? json.text = some json := by
  have reads := value?_textAt json written 0 _ [] (Nat.le_succ _) (fun _ none => by cases none)
  rw [List.append_nil] at reads
  rw [ofText?, text, reads]
  rfl

/-! ### Nesting -/

mutual

/-- How deep arrays and objects nest in a value. -/
def depth : Json → Nat
  | .null | .bool _ | .integer _ | .string _ | .other => 0
  | .array items => depthOfItems items + 1
  | .object fields => depthOfFields fields + 1

/-- How deep they nest in the items of an array. -/
def depthOfItems : List Json → Nat
  | [] => 0
  | item :: rest => max (depth item) (depthOfItems rest)

/-- How deep they nest in the values of fields. -/
def depthOfFields : List (String × Json) → Nat
  | [] => 0
  | (_, value) :: rest => max (depth value) (depthOfFields rest)

end

private theorem depthOfItems_le {items : List Json} :
    depthOfItems items ≤ budget ↔ ∀ item ∈ items, item.depth ≤ budget := by
  induction items with
  | nil => simp [depthOfItems]
  | cons item items induction => simp [depthOfItems, induction]

private theorem depthOfFields_le {fields : List (String × Json)} :
    depthOfFields fields ≤ budget ↔ ∀ field ∈ fields, field.2.depth ≤ budget := by
  induction fields with
  | nil => simp [depthOfFields]
  | cons field fields induction => simp [depthOfFields, induction]

private theorem depth_tagged (tag : String) (json : Json) :
    (tagged tag json).depth = json.depth + 1 := by
  simp [tagged, depth, depthOfFields]

private theorem areWritten_iff {items : List Json} :
    areWritten items = true ↔ ∀ item ∈ items, item.isWritten = true := by
  induction items with
  | nil => simp [areWritten]
  | cons item items induction => simp [areWritten, induction]

private theorem fieldsWritten_iff {fields : List (String × Json)} :
    fieldsWritten fields = true ↔ ∀ field ∈ fields, field.2.isWritten = true := by
  induction fields with
  | nil => simp [fieldsWritten]
  | cons field fields induction => simp [fieldsWritten, induction]

/-! ### The law of what is written -/

/-- The value, unless the levels exceed the budget. -/
def within (levels budget : Nat) (value : α) : Option α :=
  if levels ≤ budget then some value else none

@[simp]
private theorem within_zero (value : α) : within 0 budget value = some value := rfl

@[simp]
private theorem within_succ_zero (levels : Nat) (value : α) : within (levels + 1) 0 value = none :=
  rfl

@[simp]
private theorem within_succ_succ (levels : Nat) (value : α) :
    within (levels + 1) (budget + 1) value = within levels budget value := by
  simp [within]

@[simp]
private theorem within_map (levels : Nat) (value : α) (f : α → β) :
    (within levels budget value).map f = within levels budget (f value) :=
  apply_ite (Option.map f) ..

@[simp]
private theorem within_bind_some (levels : Nat) (value : α) (f : α → β) :
    ((within levels budget value).bind fun value => some (f value)) =
      within levels budget (f value) := by
  by_cases fits : levels ≤ budget <;> simp [within, fits]

/-- Parts that are read one after the other are all within the budget. -/
@[simp]
theorem within_bind_within (first second : Nat) (value : α) (f : α → β) :
    ((within first budget value).bind fun value => within second budget (f value)) =
      within (max first second) budget (f value) := by
  by_cases fits : first ≤ budget <;> simp [within, fits]

/-- What is written for a value is read back within a budget that covers its nesting, and with no
other budget. -/
structure Decodes (read : Nat → Json → Option α) (json : Json) (value : α) : Prop where
  written : json.isWritten = true
  reads : ∀ budget, read budget json = within json.depth budget value

private theorem within_items {read : Nat → Json → Option α} {write : α → Json} {values : List α}
    (each : ∀ value ∈ values, Decodes read (write value) value) :
    (values.map write).mapM (read budget) =
      within (depthOfItems (values.map write)) budget values := by
  induction values with
  | nil => rfl
  | cons value values induction =>
      rw [List.map_cons, List.mapM_cons, (each value List.mem_cons_self).reads,
        induction fun value among => each value (List.mem_cons_of_mem _ among)]
      simp [depthOfItems]

theorem Decodes.array {read : Nat → Json → Option α} {write : α → Json} {values : List α}
    (each : ∀ value ∈ values, Decodes read (write value) value) :
    Decodes (asArray? read) (.array (values.map write)) values where
  written := by
    rw [isWritten, areWritten_iff]
    intro item among
    obtain ⟨value, found, rfl⟩ := List.mem_map.mp among
    exact (each value found).written
  reads budget := by
    cases budget with
    | zero => rfl
    | succ budget => rw [asArray?, within_items each, depth, within_succ_succ]

/-- An object with one field is read within the budget that is left for the field. -/
theorem Decodes.tagged {read : Nat → Json → Option α} {json : Json} {value : α}
    (law : Decodes read json value) {wrapped : Nat → Json → Option β} {f : α → β} {tag : String}
    (closed : wrapped 0 (tagged tag json) = none)
    (opened : ∀ budget, wrapped (budget + 1) (Json.tagged tag json) = (read budget json).map f) :
    Decodes wrapped (Json.tagged tag json) (f value) where
  written := by simp [Json.tagged, isWritten, fieldsWritten, law.written]
  reads budget := by
    rw [depth_tagged]
    cases budget with
    | zero => exact closed
    | succ budget => rw [opened, law.reads, within_map, within_succ_succ]

/-- An object whose only field is a record is read within the budget that is left for the fields of
the record. -/
theorem decodes_record {wrapped : Nat → Json → Option α} {tag : String}
    {fields : List (String × Json)} {value : α} (written : fieldsWritten fields = true)
    (closed : wrapped 0 (tagged tag (.object fields)) = none ∧
      wrapped 1 (tagged tag (.object fields)) = none)
    (opened : ∀ budget, wrapped (budget + 2) (tagged tag (.object fields)) =
      within (depthOfFields fields) budget value) :
    Decodes wrapped (tagged tag (.object fields)) value where
  written := by simp [tagged, isWritten, fieldsWritten, written]
  reads budget := by
    rw [depth_tagged, depth]
    match budget with
    | 0 => exact closed.1
    | 1 => exact closed.2
    | budget + 2 => rw [opened, within_succ_succ, within_succ_succ]

/-- None of the values that are written is null, so null stands for none. -/
theorem Decodes.ofOption {read : Nat → Json → Option α} {write : α → Json}
    (law : ∀ value, Decodes read (write value) value)
    (some : ∀ value, (write value).isNull = false) (value : Option α) :
    Decodes (fun budget => nullable? (read budget)) (.ofOption write value) value := by
  cases value with
  | none => exact ⟨rfl, fun _ => rfl⟩
  | some value =>
      have reads (budget : Nat) :
          nullable? (read budget) (write value) = (read budget (write value)).map .some := by
        have other := some value
        revert other
        cases write value <;> intro other
        · cases other
        all_goals rfl
      refine ⟨(law value).written, fun budget => ?_⟩
      show nullable? (read budget) (write value) = _
      rw [reads, (law value).reads, within_map]
      rfl

private theorem decodes_text (value : String) :
    Decodes (fun _ => asText?) (.string value) value where
  written := rfl
  reads _ := rfl

private theorem decodes_int32 (value : Int32) :
    Decodes (fun _ => asInt32?) (.integer value.toInt) value where
  written := rfl
  reads _ := by
    have bounds : -2147483648 ≤ value.toInt ∧ value.toInt ≤ 2147483647 :=
      ⟨value.le_toInt, Int.le_of_lt_add_one value.toInt_lt⟩
    rw [asInt32?, Numeral.int32?, if_pos bounds, Int32.ofInt_toInt]
    rfl

private theorem decodes_word (value : UInt32) :
    Decodes (fun _ => asWord?) (.integer value.toNat) value where
  written := rfl
  reads _ := by
    have bounds : 0 ≤ (value.toNat : Int) ∧ (value.toNat : Int) < UInt32.size :=
      ⟨Int.natCast_nonneg _, Int.ofNat_lt.mpr value.toNat_lt⟩
    rw [asWord?, if_pos bounds, Int.toNat_natCast, UInt32.ofNat_toNat]
    rfl

end Json

open Json (Decodes)

/-! ### Parameters and bindings -/

private theorem Formal.decodesJson (formal : Formal) :
    Decodes Formal.ofJson? (.string formal.text) formal where
  written := rfl
  reads _ := by cases formal <;> rfl

private theorem Context.decodesJson (context : Context) :
    Decodes Context.ofJson? (.string context.text) context where
  written := rfl
  reads _ := by cases context <;> rfl

private theorem Chomping.decodesJson (chomping : Chomping) :
    Decodes Chomping.ofJson? (.string chomping.text) chomping where
  written := rfl
  reads _ := by cases chomping <;> rfl

private theorem Value.decodesJson (value : Value) : Decodes Value.ofJson? value.toJson value := by
  cases value with
  | int value => exact (Json.decodes_int32 value).tagged rfl fun _ => rfl
  | context context => exact context.decodesJson.tagged rfl fun _ => rfl
  | chomping chomping => exact chomping.decodesJson.tagged rfl fun _ => rfl

private theorem Binding.decodesJson (binding : Binding) :
    Decodes Binding.ofJson? binding.toJson binding := by
  cases binding with
  | literal value =>
      exact value.decodesJson.tagged (by cases value <;> rfl) fun _ => by cases value <;> rfl
  | context => exact ⟨rfl, fun budget => by cases budget <;> rfl⟩
  | chomping => exact ⟨rfl, fun budget => by cases budget <;> rfl⟩
  | inFlow => exact ⟨rfl, fun budget => by cases budget <;> rfl⟩
  | indent n m offset =>
      have added := (Json.decodes_int32 offset).reads 0
      refine Json.decodes_record rfl ⟨rfl, rfl⟩ fun budget => ?_
      simp only [Json.tagged, ofJson?, Json.asName?]
      simp [Json.record?, Json.field?, Json.Field.required?, Json.asBool?, added, Json.depth,
        Json.depthOfFields]

private theorem Bound.decodesJson (bound : Bound) : Decodes Bound.ofJson? bound.toJson bound := by
  cases bound with
  | fixed count => exact (Json.decodes_word count).tagged rfl fun _ => rfl
  | computed binding => exact binding.decodesJson.tagged rfl fun _ => rfl

private theorem CodeRange.decodesJson (range : CodeRange) :
    Decodes CodeRange.ofJson? range.toJson range where
  written := rfl
  reads budget := by
    cases budget with
    | zero => rfl
    | succ budget =>
        have first := (Json.decodes_word range.first).reads 0
        have last := (Json.decodes_word range.last).reads 0
        simp [CodeRange.ofJson?, CodeRange.toJson, first, last, Json.depth, Json.depthOfItems]

/-! ### Expressions -/

private theorem Parameters.decodesJson (parameters : Parameters) :
    Decodes Parameters.ofJson? parameters.toJson parameters := by
  have first := Decodes.ofOption Json.decodes_int32 (fun _ => rfl) parameters.n
  have second := Decodes.ofOption Json.decodes_int32 (fun _ => rfl) parameters.m
  have third := Decodes.ofOption Context.decodesJson (fun _ => rfl) parameters.c
  have fourth := Decodes.ofOption Chomping.decodesJson (fun _ => rfl) parameters.t
  refine ⟨?_, fun budget => ?_⟩
  · simp [toJson, Json.isWritten, Json.fieldsWritten, first.written, second.written,
      third.written, fourth.written]
  · cases budget with
    | zero => rfl
    | succ budget =>
        simp [ofJson?, toJson, Json.record?, Json.field?, Json.Field.defaulted?,
          first.reads budget, second.reads budget, third.reads, fourth.reads, Json.depth,
          Json.depthOfFields]

namespace Node

variable {budget : Nat}

private theorem ofJson?_sequence (json : Json) :
    ofJson? (budget + 1) (Json.tagged "sequence" json) =
      (Json.asArray? ofJson? budget json).map .sequence := by
  cases budget <;> cases json <;> rfl

private theorem ofJson?_first (json : Json) :
    ofJson? (budget + 1) (Json.tagged "first" json) =
      (Json.asArray? ofJson? budget json).map .first := by
  cases budget <;> cases json <;> rfl

private theorem ofJson?_cases (json : Json) :
    ofJson? (budget + 1) (Json.tagged "context" json) =
      (Json.asArray? armOfJson? budget json).map .cases := by
  cases budget <;> cases json <;> rfl

private theorem allToJson_eq (children : List Node) : allToJson children = children.map toJson := by
  induction children with
  | nil => rfl
  | cons child children induction => rw [allToJson, induction, List.map_cons]

/-- A case as JSON. -/
def armToJson (arm : Parameters × Node) : Json :=
  .object [("pattern", arm.1.toJson), ("body", arm.2.toJson)]

private theorem armsToJson_eq (arms : List (Parameters × Node)) :
    armsToJson arms = arms.map armToJson := by
  induction arms with
  | nil => rfl
  | cons arm arms induction => rw [armsToJson, induction, List.map_cons, armToJson]

private theorem armToJson_decodes {arm : Parameters × Node}
    (law : Decodes ofJson? arm.2.toJson arm.2) :
    Decodes armOfJson? (armToJson arm) arm where
  written := by
    simp [armToJson, Json.isWritten, Json.fieldsWritten, arm.1.decodesJson.written, law.written]
  reads budget := by
    cases budget with
    | zero => rfl
    | succ budget =>
        simp [armOfJson?, armToJson, Json.record?, Json.field?, Json.Field.required?,
          arm.1.decodesJson.reads, law.reads, Json.depth, Json.depthOfFields]

private theorem ofJson?_reference (name arguments : Json) :
    ofJson? (budget + 2)
        (Json.tagged "ref" (.object [("name", name), ("args", arguments)])) = (do
      return .reference (← name.asText?) (← Json.asArray? Binding.ofJson? budget arguments)) :=
  rfl

private theorem ofJson?_repeated (child minimum maximum : Json) :
    ofJson? (budget + 2) (Json.tagged "repeat"
        (.object [("child", child), ("min", minimum), ("max", maximum)])) = (do
      return .repeated (← ofJson? budget child) (← Bound.ofJson? budget minimum)
        (← Json.nullable? (Bound.ofJson? budget) maximum)) := by
  cases maximum <;> rfl

private theorem ofJson?_lookahead (child positive : Json) :
    ofJson? (budget + 2)
        (Json.tagged "lookahead" (.object [("child", child), ("positive", positive)])) = (do
      return .lookahead (← ofJson? budget child) (← positive.asBool?)) :=
  rfl

private theorem ofJson?_detectIndentation (minimum child : Json) :
    ofJson? (budget + 2)
        (Json.tagged "detect-indentation" (.object [("min", minimum), ("child", child)])) = (do
      return .detectIndentation (← Binding.ofJson? budget minimum) (← ofJson? budget child)) :=
  rfl

mutual

private theorem decodesJson : (node : Node) → Decodes ofJson? node.toJson node
  | .empty | .startOfLine | .endOfInput => ⟨rfl, fun budget => by cases budget <;> rfl⟩
  | .literal text => (Json.decodes_text text).tagged rfl fun _ => rfl
  | .chars set =>
      (Json.Decodes.array fun range _ => CodeRange.decodesJson range).tagged
        (f := fun ranges => Node.chars ⟨ranges⟩) rfl fun _ => rfl
  | .reference name arguments => by
      have bindings := Json.Decodes.array fun binding (_ : binding ∈ arguments) =>
        Binding.decodesJson binding
      refine Json.decodes_record ?_ ⟨rfl, rfl⟩ fun budget => ?_
      · simpa [Json.fieldsWritten, Json.isWritten] using bindings.written
      · simp [ofJson?_reference, Json.asText?, bindings.reads, Json.depthOfFields, Json.depth]
  | .sequence children => by
      rw [toJson, allToJson_eq]
      exact (Json.Decodes.array (allDecodeJson children)).tagged rfl fun _ => ofJson?_sequence _
  | .first children => by
      rw [toJson, allToJson_eq]
      exact (Json.Decodes.array (allDecodeJson children)).tagged rfl fun _ => ofJson?_first _
  | .repeated child minimum maximum => by
      have inner := child.decodesJson
      have least := minimum.decodesJson
      have greatest := Json.Decodes.ofOption Bound.decodesJson
        (fun bound => by cases bound <;> rfl) maximum
      refine Json.decodes_record ?_ ⟨rfl, rfl⟩ fun budget => ?_
      · simp [Json.fieldsWritten, inner.written, least.written, greatest.written]
      · simp [ofJson?_repeated, inner.reads, least.reads, greatest.reads, Json.depthOfFields]
  | .lookahead child positive => by
      have inner := child.decodesJson
      refine Json.decodes_record ?_ ⟨rfl, rfl⟩ fun budget => ?_
      · simp [Json.fieldsWritten, inner.written, Json.isWritten]
      · simp [ofJson?_lookahead, inner.reads, Json.asBool?, Json.depthOfFields, Json.depth]
  | .lookbehind child => child.decodesJson.tagged rfl fun _ => rfl
  | .detectIndentation minimum child => by
      have least := minimum.decodesJson
      have inner := child.decodesJson
      refine Json.decodes_record ?_ ⟨rfl, rfl⟩ fun budget => ?_
      · simp [Json.fieldsWritten, inner.written, least.written]
      · simp [ofJson?_detectIndentation, inner.reads, least.reads, Json.depthOfFields]
  | .cases arms => by
      rw [toJson, armsToJson_eq]
      exact (Json.Decodes.array (armsDecodeJson arms)).tagged rfl fun _ => ofJson?_cases _

private theorem allDecodeJson : (children : List Node) →
    ∀ child ∈ children, Decodes ofJson? child.toJson child
  | [], _, member => by cases member
  | node :: rest, child, member => by
      rcases List.mem_cons.mp member with same | later
      · exact same ▸ node.decodesJson
      · exact allDecodeJson rest child later

private theorem armsDecodeJson : (arms : List (Parameters × Node)) →
    ∀ arm ∈ arms, Decodes armOfJson? (armToJson arm) arm
  | [], _, member => by cases member
  | (pattern, body) :: rest, arm, member => by
      rcases List.mem_cons.mp member with rfl | later
      · exact armToJson_decodes body.decodesJson
      · exact armsDecodeJson rest arm later

end

end Node

/-! ### Grammars -/

private theorem Production.decodesJson (production : Production) :
    Decodes Production.ofJson? production.toJson production := by
  have number := Decodes.ofOption Json.decodes_word (fun _ => rfl) production.number
  have formals := Decodes.array fun formal (_ : formal ∈ production.formals) =>
    Formal.decodesJson formal
  have body := production.body.decodesJson
  refine ⟨?_, fun budget => ?_⟩
  · have formals := formals.written
    rw [Json.isWritten] at formals
    simp [toJson, Json.isWritten, Json.fieldsWritten, number.written, formals, body.written]
  · cases budget with
    | zero => rfl
    | succ budget =>
        simp [ofJson?, toJson, Json.record?, Json.field?, Json.Field.defaulted?,
          Json.Field.required?, number.reads budget, formals.reads, body.reads, Json.depth,
          Json.depthOfFields]

private theorem Grammar.decodesJson (grammar : Grammar) :
    Decodes Grammar.ofJson? grammar.toJson grammar where
  written := by
    rw [toJson, Json.isWritten, Json.fieldsWritten_iff]
    intro field among
    obtain ⟨entry, -, rfl⟩ := List.mem_map.mp among
    exact entry.2.decodesJson.written
  reads budget := by
    have fields (entries : List (String × Production)) (budget : Nat) :
        ((entries.map fun entry => (entry.1, entry.2.toJson)).mapM fun field =>
          (Production.ofJson? budget field.2).map fun production => (field.1, production)) =
            Json.within (Json.depthOfFields (entries.map fun entry => (entry.1, entry.2.toJson)))
              budget entries := by
      induction entries with
      | nil => rfl
      | cons entry entries induction =>
          simp [entry.2.decodesJson.reads, induction, Json.depthOfFields]
    cases budget with
    | zero => rfl
    | succ budget =>
        have collected := congrArg (Option.map ofList) (fields grammar.entries budget)
        rw [Json.within_map, ofList_entries] at collected
        rw [toJson, Json.depth, Json.within_succ_succ]
        exact collected

/-! ### The law of what is accepted -/

namespace Json

variable {α : Type} {budget : Nat} {write : α → Json}

/-- What a reader accepts is written within a budget. -/
def Bounded (budget : Nat) (read : Json → Option α) (write : α → Json) : Prop :=
  ∀ json value, read json = some value → (write value).depth ≤ budget

/-- A reader that accepts nothing without a budget may accept what nests once. -/
theorem bounded_of_shallow {read : Nat → Json → Option α}
    (shallow : ∀ value, (write value).depth ≤ 1) (closed : ∀ json, read 0 json = none) :
    Bounded budget (read budget) write := by
  intro json value reads
  cases budget with
  | zero => cases (closed json).symm.trans reads
  | succ budget => exact Nat.le_trans (shallow value) (Nat.le_add_left 1 budget)

private theorem forall_of_mapM {β : Type} {read : β → Option α} {holds : α → Prop}
    (law : ∀ item value, read item = some value → holds value) {items : List β}
    {values : List α} (reads : items.mapM read = some values) : ∀ value ∈ values, holds value := by
  induction items generalizing values with
  | nil =>
      obtain rfl := Option.some.inj reads
      simp
  | cons item items induction =>
      rw [List.mapM_cons] at reads
      obtain ⟨value, first, reads⟩ := Option.bind_eq_some_iff.mp reads
      obtain ⟨more, later, same⟩ := Option.bind_eq_some_iff.mp reads
      obtain rfl := Option.some.inj same
      exact List.forall_mem_cons.mpr ⟨law item value first, induction later⟩

private theorem bounded_items {read : Json → Option α} (law : Bounded budget read write)
    {items : List Json} {values : List α} (reads : items.mapM read = some values) :
    (Json.array (values.map write)).depth ≤ budget + 1 := by
  rw [depth, Nat.add_le_add_iff_right, depthOfItems_le, List.forall_mem_map]
  exact forall_of_mapM law reads

private theorem bounded_array {read : Nat → Json → Option α}
    (law : ∀ budget, Bounded budget (read budget) write) :
    Bounded budget (asArray? read budget) fun values => .array (values.map write) := by
  intro json values reads
  match budget, json with
  | budget + 1, .array items => exact bounded_items (law budget) reads

namespace Field

variable {read : Json → Option α} {field : Field} {value : α}

private theorem required?_bounded (law : Bounded budget read write)
    (reads : field.required? read = some value) : (write value).depth ≤ budget := by
  cases field with
  | given json => exact law _ _ reads
  | absent | cut => cases reads

private theorem optional?_bounded {value : Option α} (law : Bounded budget read write)
    (reads : field.optional? read = some value) :
    (ofOption write value).depth ≤ budget := by
  cases value with
  | none => exact Nat.zero_le budget
  | some value =>
      unfold optional? at reads
      split at reads
      · cases reads
      · cases reads
      · obtain ⟨found, accepted, same⟩ := Option.map_eq_some_iff.mp reads
        obtain rfl := Option.some.inj same
        exact law _ _ accepted
      · cases reads

end Field

end Json

open Json (Bounded)

private theorem Value.bounded (budget : Nat) : Bounded budget (Value.ofJson? budget) Value.toJson :=
  Json.bounded_of_shallow (fun value => by cases value <;> exact Nat.le_refl 1) fun _ => rfl

private theorem CodeRange.bounded (budget : Nat) :
    Bounded budget (CodeRange.ofJson? budget) CodeRange.toJson :=
  Json.bounded_of_shallow (fun range => show range.toJson.depth ≤ 1 from Nat.le_refl 1)
    fun _ => rfl

private theorem Parameters.bounded (budget : Nat) :
    Bounded budget (Parameters.ofJson? budget) Parameters.toJson := by
  refine Json.bounded_of_shallow (fun parameters => ?_) fun _ => rfl
  obtain ⟨n, m, c, t⟩ := parameters
  cases n <;> cases m <;> cases c <;> cases t <;> exact Nat.le_refl 1

private theorem Binding.bounded (budget : Nat) :
    Bounded budget (Binding.ofJson? budget) Binding.toJson := by
  intro json binding reads
  unfold ofJson? at reads
  split at reads
  · obtain rfl := Option.some.inj reads
    exact Nat.zero_le _
  · obtain rfl := Option.some.inj reads
    exact Nat.zero_le _
  · obtain rfl := Option.some.inj reads
    exact Nat.zero_le _
  · obtain ⟨value, inner, rfl⟩ := Option.map_eq_some_iff.mp reads
    rw [toJson, Json.depth_tagged]
    exact Nat.succ_le_succ (Value.bounded _ _ _ inner)
  · split at reads
    · simp only [Option.bind_eq_bind, Option.bind_eq_some_iff] at reads
      obtain ⟨n, -, m, -, offset, -, same⟩ := reads
      obtain rfl := Option.some.inj same
      exact Nat.le_add_left 2 _
    · cases reads
  · cases reads

private theorem Bound.bounded (budget : Nat) :
    Bounded budget (Bound.ofJson? budget) Bound.toJson := by
  intro json bound reads
  unfold ofJson? at reads
  split at reads
  · split at reads
    · obtain ⟨count, -, rfl⟩ := Option.map_eq_some_iff.mp reads
      exact Nat.le_add_left 1 _
    · obtain ⟨binding, inner, rfl⟩ := Option.map_eq_some_iff.mp reads
      rw [toJson, Json.depth_tagged]
      exact Nat.succ_le_succ (Binding.bounded _ _ _ inner)
    · cases reads
  · cases reads

namespace Node

private theorem armBounded {budget : Nat}
    (law : ∀ smaller < budget, Bounded smaller (ofJson? smaller) toJson) :
    Bounded budget (armOfJson? budget) armToJson := by
  intro json arm reads
  unfold armOfJson? at reads
  split at reads
  · split at reads
    · simp only [Option.bind_eq_bind, Option.bind_eq_some_iff] at reads
      obtain ⟨pattern, first, body, second, same⟩ := reads
      obtain rfl := Option.some.inj same
      have front := Json.Field.required?_bounded (Parameters.bounded _) first
      have back := Json.Field.required?_bounded (law _ (Nat.lt_succ_self _)) second
      simp [armToJson, Json.depth, Json.depthOfFields, front, back]
    · cases reads
  · cases reads

private theorem depth_of_ofName? {name : String} {node : Node} (found : ofName? name = some node) :
    node.toJson.depth = 0 := by
  unfold ofName? at found
  split at found
  all_goals
    cases found
    try rfl

private theorem reference_bounded {budget : Nat} {json : Json} {node : Node}
    (reads : referenceOfJson? budget json = some node) : node.toJson.depth ≤ budget + 1 := by
  unfold referenceOfJson? at reads
  split at reads
  · split at reads
    · simp only [Option.bind_eq_bind, Option.bind_eq_some_iff] at reads
      obtain ⟨name, -, arguments, second, same⟩ := reads
      obtain rfl := Option.some.inj same
      have back := Json.Field.required?_bounded
        (Json.bounded_array Binding.bounded) second
      simpa [toJson, Json.depth_tagged, Json.depth, Json.depthOfFields] using back
    · cases reads
  · cases reads

private theorem bounded (budget : Nat) : Bounded budget (ofJson? budget) toJson := by
  induction budget using Nat.strongRecOn with
  | ind budget induction =>
    intro json node reads
    unfold ofJson? at reads
    split at reads
    · exact depth_of_ofName? reads ▸ Nat.zero_le budget
    · rename_i depth tag json
      have inside : ∀ smaller < depth, Bounded smaller (ofJson? smaller) toJson :=
        fun smaller below => induction smaller (Nat.lt_succ_of_lt below)
      split at reads
      · obtain ⟨text, -, rfl⟩ := Option.map_eq_some_iff.mp reads
        exact Nat.le_add_left 1 _
      · obtain ⟨ranges, inner, rfl⟩ := Option.map_eq_some_iff.mp reads
        rw [toJson, Json.depth_tagged]
        exact Nat.succ_le_succ (Json.bounded_array CodeRange.bounded _ _ inner)
      · exact reference_bounded reads
      · split at reads
        · obtain ⟨children, inner, rfl⟩ := Option.map_eq_some_iff.mp reads
          rw [toJson, allToJson_eq, Json.depth_tagged]
          exact Nat.succ_le_succ (Json.bounded_items (inside _ (Nat.lt_succ_self _)) inner)
        · cases reads
      · split at reads
        · obtain ⟨children, inner, rfl⟩ := Option.map_eq_some_iff.mp reads
          rw [toJson, allToJson_eq, Json.depth_tagged]
          exact Nat.succ_le_succ (Json.bounded_items (inside _ (Nat.lt_succ_self _)) inner)
        · cases reads
      · split at reads
        · simp only [Option.bind_eq_bind, Option.bind_eq_some_iff] at reads
          obtain ⟨child, first, minimum, second, maximum, third, same⟩ := reads
          obtain rfl := Option.some.inj same
          have inner := Json.Field.required?_bounded (inside _ (Nat.lt_succ_self _)) first
          have least := Json.Field.required?_bounded (Bound.bounded _) second
          have greatest := Json.Field.optional?_bounded (Bound.bounded _) third
          simp [toJson, Json.depth_tagged, Json.depth, Json.depthOfFields, inner, least,
            greatest]
        · cases reads
      · split at reads
        · simp only [Option.bind_eq_bind, Option.bind_eq_some_iff] at reads
          obtain ⟨child, first, positive, -, same⟩ := reads
          obtain rfl := Option.some.inj same
          have inner := Json.Field.required?_bounded (inside _ (Nat.lt_succ_self _)) first
          simpa [toJson, Json.depth_tagged, Json.depth, Json.depthOfFields] using inner
        · cases reads
      · obtain ⟨child, inner, rfl⟩ := Option.map_eq_some_iff.mp reads
        rw [toJson, Json.depth_tagged]
        exact Nat.succ_le_succ (induction depth (Nat.lt_succ_self depth) _ _ inner)
      · split at reads
        · simp only [Option.bind_eq_bind, Option.bind_eq_some_iff] at reads
          obtain ⟨minimum, first, child, second, same⟩ := reads
          obtain rfl := Option.some.inj same
          have least := Json.Field.required?_bounded (Binding.bounded _) first
          have inner := Json.Field.required?_bounded (inside _ (Nat.lt_succ_self _)) second
          simp [toJson, Json.depth_tagged, Json.depth, Json.depthOfFields, inner, least]
        · cases reads
      · split at reads
        · obtain ⟨arms, inner, rfl⟩ := Option.map_eq_some_iff.mp reads
          rw [toJson, armsToJson_eq, Json.depth_tagged]
          have each := armBounded fun smaller below => inside smaller (Nat.lt_succ_of_lt below)
          exact Nat.succ_le_succ (Json.bounded_items each inner)
        · cases reads
      · split at reads
        · exact depth_of_ofName? reads ▸ Nat.zero_le _
        · cases reads
    · cases reads

end Node

private theorem Production.bounded {budget : Nat} {json : Json} {production : Production}
    (reads : Production.ofJson? budget json = some production) :
    production.toJson.depth ≤ max 2 budget := by
  unfold ofJson? at reads
  split at reads
  · split at reads
    · simp only [Option.bind_eq_bind, Option.bind_eq_some_iff] at reads
      obtain ⟨number, -, formals, -, body, third, same⟩ := reads
      obtain rfl := Option.some.inj same
      have inner := Json.Field.required?_bounded (Node.bounded _) third
      have front :
          (Json.ofOption (fun number : UInt32 => .integer number.toNat) number).depth = 0 := by
        cases number <;> rfl
      have names : Json.depthOfItems (formals.map fun formal => .string formal.text) ≤ 0 := by
        rw [Json.depthOfItems_le, List.forall_mem_map]
        exact fun _ _ => Nat.le_refl 0
      simp only [toJson, Json.depth, Json.depthOfFields, front]
      omega
    · cases reads
  · cases reads

private theorem Grammar.bounded {budget : Nat} {json : Json} {grammar : Grammar}
    (reads : Grammar.ofJson? budget json = some grammar) :
    grammar.toJson.depth ≤ max 3 budget := by
  match budget, json with
  | budget + 1, .object fields =>
      obtain ⟨entries, inner, rfl⟩ := Option.map_eq_some_iff.mp reads
      have each : ∀ entry ∈ entries, entry.2.toJson.depth ≤ max 2 budget := by
        refine Json.forall_of_mapM (fun field entry found => ?_) inner
        obtain ⟨production, accepted, rfl⟩ := Option.map_eq_some_iff.mp found
        exact Production.bounded accepted
      have levels : Json.depthOfFields
          ((ofList entries).entries.map fun entry => (entry.1, entry.2.toJson)) ≤ max 2 budget := by
        rw [Json.depthOfFields_le, List.forall_mem_map]
        exact fun entry among => each entry (mem_ofList among)
      exact Nat.le_trans (Nat.succ_le_succ levels) (by omega)

/-! ### Texts -/

namespace Grammar

private theorem ofJsonText?_jsonText (grammar : Grammar) :
    ofJsonText? grammar.jsonText =
      if grammar.toJson.depth ≤ Json.depthLimit then some grammar else none := by
  rw [ofJsonText?, jsonText, Json.ofText?_text grammar.decodesJson.written]
  exact grammar.decodesJson.reads Json.depthLimit

/-- The text of a grammar gives the grammar back, unless it nests too deep, which no grammar that
was read from a text does. -/
theorem ofJsonText?_iff_depth :
    (∀ grammar : Grammar,
      (grammar.toJson.depth ≤ 127 → ofJsonText? grammar.jsonText = some grammar) ∧
        (127 < grammar.toJson.depth → ofJsonText? grammar.jsonText = none)) ∧
    ∀ text grammar, ofJsonText? text = some grammar →
      ofJsonText? grammar.jsonText = some grammar := by
  refine ⟨fun grammar => ⟨fun fits => ?_, fun deep => ?_⟩, fun text grammar reads => ?_⟩
  · rw [ofJsonText?_jsonText]
    exact if_pos fits
  · rw [ofJsonText?_jsonText]
    exact if_neg (Nat.not_le.mpr deep)
  · obtain ⟨json, -, accepted⟩ := Option.bind_eq_some_iff.mp reads
    rw [ofJsonText?_jsonText]
    exact if_pos (Grammar.bounded accepted)

/-- A grammar whose production looks behind so many times over. -/
def backwards (times : Nat) : Grammar :=
  ofList [("backwards", { body := Node.lookbehind^[times] .empty })]

theorem ofJsonText?_backwards :
    ((backwards 125).toJson.depth ≤ 127 ∧
      ofJsonText? (backwards 125).jsonText = some (backwards 125)) ∧
    (127 < (backwards 126).toJson.depth ∧ ofJsonText? (backwards 126).jsonText = none) ∧
    ∃ text, ofJsonText? text = some (backwards 0) ∧
      ofJsonText? (backwards 0).jsonText = some (backwards 0) := by
  have fits : (backwards 125).toJson.depth ≤ 127 := by decide +kernel
  have deep : 127 < (backwards 126).toJson.depth := by decide +kernel
  have sparse : ofJsonText? (braced ("\"backwards\": " ++ braced "\"body\": \"empty\"")) =
      some (backwards 0) := by decide +kernel
  exact ⟨⟨fits, (ofJsonText?_iff_depth.1 _).1 fits⟩, ⟨deep, (ofJsonText?_iff_depth.1 _).2 deep⟩,
    _, sparse, ofJsonText?_iff_depth.2 _ _ sparse⟩

end Grammar

end ParametricGrammar
