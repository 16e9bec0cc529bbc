import ParametricGrammar.Bnf.Compile
import ParametricGrammar.Proofs.Semantics
/-!
# Derivations in the dialect

The dialect binds no parameters and never looks back, so what its expressions do depends on the
characters ahead alone. `Takes` and `Refuses` say it without places, with one rule for each way to
build an expression.
-/

namespace ParametricGrammar

namespace Bnf

namespace Dialect

set_option maxRecDepth 4000 in
theorem nodup_rules : (rules.map Prod.fst).Nodup := by decide

theorem entries_grammar :
    grammar.entries = rules.map fun (name, body) => (name, { body := body }) :=
  Grammar.entries_ofList (by simpa [Function.comp_def] using nodup_rules)

theorem get?_of_mem {name : String} {body : Node} (member : (name, body) ∈ rules) :
    grammar.get? name = some { body := body } := by
  refine Grammar.lookup_eq_some_of_mem grammar.nodup ?_
  rw [entries_grammar]
  exact List.mem_map.mpr ⟨_, member, rfl⟩

/-- A check that all rules pass is passed by each of them. -/
theorem check_of_mem {name : String} {body : Node} (check : String → Node → Bool)
    (all : (rules.all fun rule => check rule.1 rule.2) = true) (member : (name, body) ∈ rules) :
    check name body = true :=
  List.all_eq_true.mp all _ member

/-! ### Trees left behind -/

/-- A property of the trees that a match of a source leaves behind. -/
abbrev Leaves := (source : List Char) → List Tree → Prop

/-- No trees. -/
def silent : Leaves := fun _ trees => trees = []

/-- Some trees and then others. -/
def Leaves.andThen (left right : Leaves) : Leaves := fun source trees =>
  ∃ before behind, trees = before ++ behind ∧ left source before ∧ right source behind

@[simp] theorem silent_andThen (leaves : Leaves) : silent.andThen leaves = leaves := by
  funext source trees
  refine propext ⟨?_, fun holds => ⟨[], trees, rfl, rfl, holds⟩⟩
  rintro ⟨before, behind, rfl, rfl, holds⟩
  exact holds

@[simp] theorem andThen_silent (leaves : Leaves) : leaves.andThen silent = leaves := by
  funext source trees
  refine propext ⟨?_, fun holds => ⟨trees, [], (List.append_nil trees).symm, holds, rfl⟩⟩
  rintro ⟨before, behind, rfl, holds, rfl⟩
  rwa [List.append_nil]

/-- One tree of a name, with a property. -/
def one (name : String) (holds : (source : List Char) → Tree → Prop) : Leaves :=
  fun source trees => ∃ tree, trees = [tree] ∧ tree.name = name ∧ holds source tree

/-- One tree of a name, over given characters. -/
def Leaves.under (inside : Leaves) (name : String) (chars : List Char) : Leaves :=
  one name fun source tree => tree.text source = String.ofList chars ∧ inside source tree.content

/-! ### Matches and failures -/

/-- An expression matches given characters before others, with nothing bound. -/
def Takes (depth : ℕ) (node : Node) (chars rest : List Char) (leaves : Leaves) : Prop :=
  ∀ (production : String) (first last : Cursor), first.Spans chars last → last.rest = rest →
    ∃ nodes, Derives grammar depth production (.node node) .empty first (.matched nodes last) ∧
      leaves first.whole nodes

/-- An expression does not match before given characters, with nothing bound. -/
def Refuses (depth : ℕ) (node : Node) (ahead : List Char) : Prop :=
  ∀ (production : String) (first : Cursor), first.rest = ahead →
    Derives grammar depth production (.node node) .empty first .unmatched

variable {depth : ℕ} {node : Node} {nodes : List Node} {name : String} {body : Node}
  {chars left right rest ahead : List Char} {leaves leavesLeft leavesRight : Leaves}

theorem Takes.imp {others : Leaves} (takes : Takes depth node chars rest leaves)
    (implies : ∀ source trees, leaves source trees → others source trees) :
    Takes depth node chars rest others := by
  intro production first last spans same
  obtain ⟨nodes, derives, left⟩ := takes production first last spans same
  exact ⟨nodes, derives, implies _ _ left⟩

theorem Takes.of_eq {text : List Char} (takes : Takes depth node chars rest leaves)
    (same : text = chars) : Takes depth node text rest leaves :=
  same ▸ takes

theorem Takes.of_rest {behind : List Char} (takes : Takes depth node chars rest leaves)
    (same : behind = rest) : Takes depth node chars behind leaves :=
  same ▸ takes

theorem Refuses.mono {deeper : ℕ} (refuses : Refuses depth node ahead) (le : depth ≤ deeper) :
    Refuses deeper node ahead :=
  fun production first same => (refuses production first same).mono (by exact_mod_cast le)

theorem Refuses.of_eq {text : List Char} (refuses : Refuses depth node ahead)
    (same : text = ahead) : Refuses depth node text :=
  same ▸ refuses

/-! ### Characters -/

theorem takes_literal (text : String) (spelled : text.toList = chars) :
    Takes depth (.literal text) chars rest silent :=
  fun _ _ _ spans _ => ⟨[], .literal (by rwa [spelled]), rfl⟩

theorem refuses_literal (text : String) (char : Char) (spelled : text.toList = char :: chars)
    (other : ahead.head? ≠ some char) : Refuses depth (.literal text) ahead := by
  rintro production first rfl
  refine .otherLiteral fun stop spans => other ?_
  rw [spans.1, spelled]
  rfl

theorem refuses_other_literal {text : String} (other : ¬ text.toList <+: ahead) :
    Refuses depth (.literal text) ahead := by
  rintro production first rfl
  exact .otherLiteral fun stop spans => other ⟨_, spans.1.symm⟩

theorem takes_chars {set : CharSet} {char : Char} (member : set.contains char = true) :
    Takes depth (.chars set) [char] rest silent :=
  fun _ _ _ spans _ => ⟨[], .chars spans member, rfl⟩

theorem refuses_chars {set : CharSet} (others : ∀ char ∈ ahead.head?, set.contains char = false) :
    Refuses depth (.chars set) ahead := by
  rintro production first rfl
  refine .otherChars fun char stop spans => others char ?_
  rw [spans.1]
  rfl

theorem takes_endOfInput : Takes depth .endOfInput [] [] silent := by
  intro production first last spans ends
  obtain rfl := Cursor.spans_nil_iff.mp spans
  refine ⟨[], ?_, rfl⟩
  have derives : Derives grammar depth production (.node .endOfInput) .empty last _ := .endOfInput
  rwa [ends] at derives

/-! ### Calls -/

theorem Takes.call (name : String) (takes : Takes depth body chars rest leaves)
    (member : (name, body) ∈ rules) :
    Takes (depth + 1) (.call name) chars rest (leaves.under name chars) := by
  intro production first last spans same
  obtain ⟨nodes, derives, left⟩ := takes name first last spans same
  exact ⟨_, .reference (by simp) (get?_of_mem member) rfl rfl derives, _, rfl, rfl,
    spans.slice_eq, left⟩

theorem Refuses.call (name : String) (refuses : Refuses depth body ahead)
    (member : (name, body) ∈ rules) :
    Refuses (depth + 1) (.call name) ahead :=
  fun _ first same =>
    .reference (by simp) (get?_of_mem member) rfl rfl (refuses name first same)

/-! ### Rows -/

theorem Takes.last (takes : Takes depth node chars rest leaves) :
    Takes depth (.sequence [node]) chars rest leaves := by
  intro production first last spans same
  obtain ⟨trees, derives, left⟩ := takes production first last spans same
  have row : Derives grammar depth production (.node (.sequence [node])) .empty first
      ((Outcome.matched [] last).prepend trees) := .sequenceCons derives .sequenceNil
  rw [Outcome.prepend_matched, List.append_nil] at row
  exact ⟨trees, row, left⟩

theorem Takes.andThen (head : Takes depth node left (right ++ rest) leavesLeft)
    (tail : Takes depth (.sequence nodes) right rest leavesRight) :
    Takes depth (.sequence (node :: nodes)) (left ++ right) rest
      (leavesLeft.andThen leavesRight) := by
  intro production first last spans same
  obtain ⟨middle, spansLeft, spansRight⟩ := spans.exists_middle
  obtain ⟨before, derivesLeft, holdsLeft⟩ :=
    head production first middle spansLeft (by rw [spansRight.1, same])
  obtain ⟨behind, derivesRight, holdsRight⟩ := tail production middle last spansRight same
  rw [spansLeft.whole_eq] at holdsRight
  exact ⟨before ++ behind, .sequenceCons derivesLeft derivesRight, before, behind, rfl, holdsLeft,
    holdsRight⟩

theorem Refuses.sequence (refuses : Refuses depth node ahead) :
    Refuses depth (.sequence (node :: nodes)) ahead :=
  fun production first same => .sequenceStop (refuses production first same) rfl

theorem Takes.refuses (head : Takes depth node left right leaves)
    (tail : Refuses depth (.sequence nodes) right) :
    Refuses depth (.sequence (node :: nodes)) (left ++ right) := by
  intro production first same
  obtain ⟨middle, spans, rest⟩ := Cursor.exists_spans same
  obtain ⟨trees, derives, -⟩ := head production first middle spans rest
  exact .sequenceCons derives (tail production middle rest)

/-- A production whose body opens with a literal needs its first character. -/
theorem refuses_opening (name text : String) (char : Char)
    (member : (name, .sequence (.literal text :: nodes)) ∈ rules)
    (spelled : text.toList = char :: chars) (other : ahead.head? ≠ some char) :
    Refuses (depth + 1) (.call name) ahead :=
  (refuses_literal text char spelled other).sequence.call name member

/-! ### Choices -/

theorem Takes.first (takes : Takes depth node chars rest leaves) :
    Takes depth (.first (node :: nodes)) chars rest leaves := by
  intro production first last spans same
  obtain ⟨trees, derives, left⟩ := takes production first last spans same
  exact ⟨trees, .firstStop derives (by simp), left⟩

theorem Refuses.orElse (refuses : Refuses depth node (chars ++ rest))
    (takes : Takes depth (.first nodes) chars rest leaves) :
    Takes depth (.first (node :: nodes)) chars rest leaves := by
  intro production first last spans same
  obtain ⟨trees, derives, left⟩ := takes production first last spans same
  exact ⟨trees, .firstNext (refuses production first (by rw [spans.1, same])) derives, left⟩

theorem refuses_none : Refuses depth (.first []) ahead :=
  fun _ _ _ => .firstNil

/-- A choice takes what one alternative takes and all before it refuse. -/
theorem Takes.choice {before : List Node} (after : List Node)
    (takes : Takes depth node chars rest leaves)
    (refuse : ∀ other ∈ before, Refuses depth other (chars ++ rest)) :
    Takes depth (.first (before ++ node :: after)) chars rest leaves := by
  induction before with
  | nil => exact takes.first
  | cons other before induction =>
      exact (refuse other List.mem_cons_self).orElse
        (induction fun other member => refuse other (List.mem_cons_of_mem _ member))

theorem Refuses.both (head : Refuses depth node ahead) (tail : Refuses depth (.first nodes) ahead) :
    Refuses depth (.first (node :: nodes)) ahead :=
  fun production first same =>
    .firstNext (head production first same) (tail production first same)

/-- A choice refuses what all alternatives refuse. -/
theorem refuses_first (refuse : ∀ other ∈ nodes, Refuses depth other ahead) :
    Refuses depth (.first nodes) ahead := by
  induction nodes with
  | nil => exact refuses_none
  | cons node nodes induction =>
      exact (refuse node List.mem_cons_self).both
        (induction fun other member => refuse other (List.mem_cons_of_mem _ member))

/-! ### Repetitions -/

theorem Takes.optional (takes : Takes depth node chars rest leaves) :
    Takes depth (.optional node) chars rest leaves := by
  intro production first last spans same
  obtain ⟨trees, derives, left⟩ := takes production first last spans same
  have once : Derives grammar depth production (.repetition node 0 (some 1)) .empty first
      ((Outcome.matched [] last).prepend trees) :=
    .again (by simp) derives (by simp) .full
  rw [Outcome.prepend_matched, List.append_nil] at once
  exact ⟨trees, .bounded rfl rfl once, left⟩

theorem Refuses.optional (refuses : Refuses depth node rest) :
    Takes depth (.optional node) [] rest silent := by
  intro production first last spans same
  obtain rfl := Cursor.spans_nil_iff.mp spans
  exact ⟨[], .bounded rfl rfl (.exhausted (by simp) (refuses production last same)), rfl⟩

theorem Refuses.zeroOrMore (refuses : Refuses depth node rest) :
    Takes depth (.zeroOrMore node) [] rest silent := by
  intro production first last spans same
  obtain rfl := Cursor.spans_nil_iff.mp spans
  exact ⟨[], .unbounded rfl (.exhausted (by simp) (refuses production last same)), rfl⟩

/-- One match and any number of further ones, which count for at least one and for any number. -/
private theorem Takes.again {least : ℕ} (some : left ≠ [])
    (head : Takes depth node left (right ++ rest) leavesLeft)
    (tail : Takes depth (.zeroOrMore node) right rest leavesRight) (production : String)
    {first last : Cursor} (spans : first.Spans (left ++ right) last) (same : last.rest = rest)
    (atMost : least ≤ 1) :
    ∃ trees, Derives grammar depth production (.repetition node least none) .empty first
        (.matched trees last) ∧ (leavesLeft.andThen leavesRight) first.whole trees := by
  obtain ⟨middle, spansLeft, spansRight⟩ := spans.exists_middle
  obtain ⟨before, derivesLeft, holdsLeft⟩ :=
    head production first middle spansLeft (by rw [spansRight.1, same])
  obtain ⟨behind, derivesRight, holdsRight⟩ := tail production middle last spansRight same
  rw [spansLeft.whole_eq] at holdsRight
  have moves : middle ≠ first := by
    rintro rfl
    exact some (List.append_cancel_right (spansLeft.1.symm.trans (List.nil_append _).symm))
  have later : Derives grammar depth production (.repetition node (least - 1) none) .empty middle
      (.matched behind last) := by
    rw [Nat.sub_eq_zero_of_le atMost]
    cases derivesRight with
    | unbounded atLeast repeats =>
        cases atLeast
        exact repeats
  have derives : Derives grammar depth production (.repetition node least none) .empty first
      ((Outcome.matched behind last).prepend before) :=
    .again (by simp) derivesLeft (fun _ => moves) later
  exact ⟨before ++ behind, derives, before, behind, rfl, holdsLeft, holdsRight⟩

theorem Takes.zeroOrMore (some : left ≠ [])
    (head : Takes depth node left (right ++ rest) leavesLeft)
    (tail : Takes depth (.zeroOrMore node) right rest leavesRight) :
    Takes depth (.zeroOrMore node) (left ++ right) rest (leavesLeft.andThen leavesRight) := by
  intro production first last spans same
  obtain ⟨trees, derives, left⟩ := again some head tail production spans same (Nat.zero_le 1)
  exact ⟨trees, .unbounded rfl derives, left⟩

theorem Takes.oneOrMore (some : left ≠ [])
    (head : Takes depth node left (right ++ rest) leavesLeft)
    (tail : Takes depth (.zeroOrMore node) right rest leavesRight) :
    Takes depth (.oneOrMore node) (left ++ right) rest (leavesLeft.andThen leavesRight) := by
  intro production first last spans same
  obtain ⟨trees, derives, left⟩ := again some head tail production spans same le_rfl
  exact ⟨trees, .unbounded rfl derives, left⟩

theorem Refuses.oneOrMore (refuses : Refuses depth node ahead) :
    Refuses depth (.oneOrMore node) ahead :=
  fun production first same =>
    .unbounded rfl (.exhausted (by simp) (refuses production first same))

/-! ### Lookaheads -/

theorem Refuses.notAhead (refuses : Refuses depth node rest) :
    Takes depth (.notAhead node) [] rest silent := by
  intro production first last spans same
  obtain rfl := Cursor.spans_nil_iff.mp spans
  exact ⟨[], .lookaheadUnmatched (refuses production last same), rfl⟩

theorem Takes.notAhead (takes : Takes depth node chars rest leaves) :
    Refuses depth (.notAhead node) (chars ++ rest) := by
  intro production first same
  obtain ⟨last, spans, behind⟩ := Cursor.exists_spans same
  obtain ⟨trees, derives, -⟩ := takes production first last spans behind
  exact .lookaheadMatched derives

end Dialect

end Bnf

end ParametricGrammar
