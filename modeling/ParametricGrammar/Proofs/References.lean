import ParametricGrammar.Assembly
import ParametricGrammar.Proofs.Soundness
/-!
# Undefined references

While a grammar is evaluated, the expression at hand is always part of the body of the production
that calls. So a production that is found undefined was mentioned in that body, and looking through
all bodies in advance finds every such reference.
-/

namespace ParametricGrammar

/-- The productions that what is evaluated refers to. -/
def Task.references : Task → List String
  | .node expression => expression.references
  | .repetition child _ _ => child.references

namespace Grammar

variable {grammar : Grammar} {caller name : String}

theorem get?_eq_none_iff : grammar.get? name = none ↔ grammar.contains name = false := by
  rw [contains, Option.isSome_eq_false_iff, Option.isNone_iff_eq_none]

theorem mem_entries_of_get? {production : Production}
    (found : grammar.get? name = some production) :
    (name, production) ∈ grammar.entries := by
  obtain ⟨before, after, split, -⟩ := List.lookup_eq_some_iff.mp found
  rw [split]
  exact List.mem_append_right _ List.mem_cons_self

/-- The undefined references are the pairs of a production and a name in its body that has no
production. -/
theorem mem_undefinedReferences_iff :
    (caller, name) ∈ grammar.undefinedReferences ↔
      ∃ production, (caller, production) ∈ grammar.entries ∧
        name ∈ production.body.references ∧ grammar.contains name = false := by
  simp only [undefinedReferences, List.mem_flatMap, List.mem_map, List.mem_eraseDups,
    List.mem_filter, Bool.not_eq_true']
  constructor
  · rintro ⟨⟨caller, production⟩, member, name, mentions, same⟩
    cases same
    exact ⟨production, member, mentions⟩
  · rintro ⟨production, member, mentions⟩
    exact ⟨(caller, production), member, name, mentions, rfl⟩

/-- An undefined name was met: in the expression at hand, or in the body of a production. -/
def Met (grammar : Grammar) (production : String) (mentioned : List String)
    (name caller : String) : Prop :=
  (caller = production ∧ name ∈ mentioned ∧ grammar.contains name = false) ∨
    (caller, name) ∈ grammar.undefinedReferences

theorem Met.mono {production : String} {fewer more : List String}
    (met : grammar.Met production fewer name caller) (subset : fewer ⊆ more) :
    grammar.Met production more name caller :=
  met.imp_left fun ⟨same, member, missing⟩ => ⟨same, subset member, missing⟩

/-- What was met in the body of a production is an undefined reference. -/
theorem Met.listed {label : String} {called : Production}
    (met : grammar.Met label called.body.references name caller)
    (found : grammar.get? label = some called) : (caller, name) ∈ grammar.undefinedReferences := by
  rcases met with ⟨rfl, mentioned, missing⟩ | listed
  · exact mem_undefinedReferences_iff.mpr
      ⟨called, mem_entries_of_get? found, mentioned, missing⟩
  · exact listed

end Grammar

/-- Binding arguments fails over parameters only. -/
theorem bindArguments_ne_undefined {caller label : String} {parameters bound : Parameters}
    {formals : List Formal} {arguments : List Binding} (name other : String) :
    bindArguments caller label parameters formals arguments bound ≠
      .error (.undefinedProduction name other) := by
  fun_induction bindArguments caller label parameters formals arguments bound with
  | case1 | case2 | case4 => simp
  | case3 => assumption

/-- An undefined production is met in the expression under evaluation or in a body that it calls,
directly or through others. -/
theorem Derives.met {grammar : Grammar} {depth : ℕ∞} {production : String} {task : Task}
    {parameters : Parameters} {cursor : Cursor} {outcome : Outcome} {name caller : String}
    (derives : Derives grammar depth production task parameters cursor outcome)
    (undefined : outcome = .failed (.undefinedProduction name caller)) :
    grammar.Met production task.references name caller := by
  induction derives with
  | undefined missing =>
      cases undefined
      exact .inl ⟨rfl, List.mem_singleton_self _, Grammar.get?_eq_none_iff.mp missing⟩
  | unbound _ _ fails =>
      cases undefined
      exact absurd fails (bindArguments_ne_undefined name caller)
  | reference _ found _ _ _ induction =>
      exact .inr ((induction (Outcome.enclose_eq_failed_iff.mp undefined)).listed found)
  | sequenceCons _ _ _ induction =>
      exact (induction (Outcome.prepend_eq_failed_iff.mp undefined)).mono
        (List.subset_append_right _ _)
  | sequenceStop _ _ induction | firstStop _ _ induction | covered _ _ induction =>
      exact (induction undefined).mono (List.subset_append_left _ _)
  | firstNext _ _ _ induction | otherCase _ _ induction =>
      exact (induction undefined).mono (List.subset_append_right _ _)
  | bounded _ _ _ induction | unbounded _ _ induction | lookbehindStop _ _ _ induction
  | indentation _ _ _ _ induction =>
      exact induction undefined
  | lookaheadFailed _ induction | repetitionFailed _ _ induction =>
      exact induction undefined
  | again _ _ _ _ _ induction =>
      exact induction (Outcome.prepend_eq_failed_iff.mp undefined)
  | zeroWidth _ _ =>
      exact absurd (Outcome.prepend_eq_failed_iff.mp undefined) (Outcome.check_ne_failed _ _ _)
  | startOfLine | endOfInput | lookaheadMatched | lookaheadUnmatched | full | exhausted =>
      exact absurd undefined (Outcome.check_ne_failed _ _ _)
  | _ => cases undefined

/-- The trees of a match are those of productions that what is matched refers to. -/
theorem Derives.mem_references {grammar : Grammar} {depth : ℕ∞} {production : String} {task : Task}
    {parameters : Parameters} {cursor stop : Cursor} {nodes : List Tree}
    (derives : Derives grammar depth production task parameters cursor (.matched nodes stop)) :
    ∀ node ∈ nodes, node.name ∈ task.references := by
  generalize result : Outcome.matched nodes stop = outcome at derives
  induction derives generalizing nodes stop with
  | empty | literal _ | chars _ _ | lookbehindMatched _ _ _ | sequenceNil =>
      cases result
      exact fun _ member => absurd member List.not_mem_nil
  | startOfLine | endOfInput | lookaheadMatched _ _ | lookaheadUnmatched _ _ | full
  | exhausted _ _ _ =>
      obtain ⟨-, rfl, -⟩ := Outcome.check_eq_matched_iff.mp result.symm
      exact fun _ member => absurd member List.not_mem_nil
  | reference _ _ _ _ _ _ =>
      obtain ⟨content, -, rfl⟩ := Outcome.enclose_eq_matched_iff.mp result.symm
      intro node member
      obtain rfl := List.mem_singleton.mp member
      exact List.mem_singleton_self _
  | sequenceCons _ _ inductionHead inductionTail =>
      obtain ⟨more, rfl, rfl⟩ := Outcome.prepend_eq_matched_iff.mp result.symm
      intro node member
      rcases List.mem_append.mp member with member | member
      · exact List.mem_append_left _ (inductionHead rfl node member)
      · exact List.mem_append_right _ (inductionTail rfl node member)
  | firstNext _ _ _ induction | otherCase _ _ induction =>
      exact fun node member => List.mem_append_right _ (induction result node member)
  | firstStop _ _ induction | covered _ _ induction =>
      exact fun node member => List.mem_append_left _ (induction result node member)
  | bounded _ _ _ induction | unbounded _ _ induction | indentation _ _ _ _ induction =>
      exact induction result
  | zeroWidth _ induction =>
      obtain ⟨more, ends, rfl⟩ := Outcome.prepend_eq_matched_iff.mp result.symm
      obtain ⟨-, rfl, -⟩ := Outcome.check_eq_matched_iff.mp ends
      rw [List.append_nil]
      exact induction rfl
  | again _ _ _ _ inductionHead inductionTail =>
      obtain ⟨more, rfl, rfl⟩ := Outcome.prepend_eq_matched_iff.mp result.symm
      intro node member
      exact (List.mem_append.mp member).elim (inductionHead rfl node) (inductionTail rfl node)
  | sequenceStop _ stops | lookbehindStop _ _ stops =>
      subst result
      simp at stops
  | _ => cases result

namespace Setting

/-- A production that a run from a defined root finds undefined is listed among the undefined
references, together with the production that mentions it. -/
theorem listed_of_parseAll {setting : Setting} {root : String} {text : List Char}
    {name caller : String} (defined : setting.grammar.contains root = true)
    (undefined : (setting.parseAll root text).1 = .error (.undefinedProduction name caller)) :
    (caller, name) ∈ setting.grammar.undefinedReferences := by
  have answers := invoke_answers setting setting.limit outside root [] .empty
    (.start text) .fresh Memory.sound_fresh
  unfold parseAll at undefined
  match reply : setting.invoke setting.limit outside root [] .empty (.start text) .fresh with
  | (.matched [] stop, after) => simp [reply] at undefined
  | (.unmatched, after) => simp [reply] at undefined
  | (.matched (tree :: more) stop, after) =>
      rw [reply] at undefined
      dsimp only at undefined
      split at undefined <;> cases undefined
  | (.failed error, after) =>
      rw [reply] at undefined answers
      obtain rfl : error = .undefinedProduction name caller := by simpa using undefined
      have derives : Derives _ _ _ _ _ _ (.failed (.undefinedProduction name caller)) :=
        answers.outcome.resolve_left (by simp)
      rcases derives.met rfl with ⟨-, mentioned, missing⟩ | listed
      · -- The only name that the outermost call mentions is the root.
        obtain rfl := List.mem_singleton.mp mentioned
        rw [defined] at missing
        cases missing
      · exact listed

end Setting

namespace Assembly

/-- A grammar finished under validation has no undefined reference. -/
theorem undefinedReferences_of_finish {assembly : Assembly} {grammar : Grammar}
    (validates : assembly.validate = true) (finishes : assembly.finish = .ok grammar) :
    grammar.undefinedReferences = [] := by
  unfold finish at finishes
  rw [validates] at finishes
  split at finishes
  · cases finishes
  · rename_i none
    cases finishes
    cases listed : assembly.grammar.undefinedReferences with
    | nil => rfl
    | cons pair others => exact absurd listed (none pair.1 pair.2 others rfl)

end Assembly

/-- Looking through the bodies in advance is enough: whatever the text, the limit and the cache, a
run from a defined root meets only undefined productions that are listed with their callers, and
none in a grammar that was finished under validation. -/
theorem undefined_only_if_listed :
    (∀ (setting : Setting) (root : String) (text : List Char) (name caller : String),
      setting.grammar.contains root = true →
        (setting.parseAll root text).1 = .error (.undefinedProduction name caller) →
          (caller, name) ∈ setting.grammar.undefinedReferences) ∧
    ∀ (assembly : Assembly) (grammar : Grammar), assembly.validate = true →
      assembly.finish = .ok grammar →
        ∀ (cached : Bool) (limit : Nat) (root : String) (text : List Char) (name caller : String),
          grammar.contains root = true →
            (Setting.parseAll ⟨grammar, cached, limit⟩ root text).1 ≠
              .error (.undefinedProduction name caller) := by
  refine ⟨fun _ _ _ _ _ => Setting.listed_of_parseAll, ?_⟩
  intro assembly grammar validates finishes cached limit root text name caller defined undefined
  have listed : (caller, name) ∈ grammar.undefinedReferences :=
    Setting.listed_of_parseAll defined undefined
  rw [Assembly.undefinedReferences_of_finish validates finishes] at listed
  cases listed

/-- Lists of letters, and of what is not defined behind a digit's lookahead. -/
def Grammar.unfinished : Grammar :=
  .ofList
    [ ("list", ⟨none, [], .oneOrMore (.call "item")⟩),
      ("item", ⟨none, [], .first [.chars (.ofRanges [⟨97, 122⟩]), .ahead (.call "digit")]⟩) ]

/-- The same lists with digits. -/
def Assembly.finished : Assembly where
  grammar := Grammar.unfinished.insert "digit" { body := .chars (.ofRanges [⟨48, 57⟩]) }
  validate := true

theorem undefined_digit_listed :
    ((Setting.parseAll ⟨.unfinished, false, 3⟩ "list" ['a', '1']).1 =
        .error (.undefinedProduction "digit" "item") ∧
      ("item", "digit") ∈ Grammar.unfinished.undefinedReferences) ∧
    Assembly.finished.finish = .ok Assembly.finished.grammar ∧
      (Setting.parseAll ⟨Assembly.finished.grammar, false, 3⟩ "list" ['a', '1']).1 ≠
        .error (.undefinedProduction "digit" "item") := by
  have undefined : (Setting.parseAll ⟨.unfinished, false, 3⟩ "list" ['a', '1']).1 =
      .error (.undefinedProduction "digit" "item") := rfl
  have finishes : Assembly.finished.finish = .ok Assembly.finished.grammar := by decide
  exact ⟨⟨undefined, undefined_only_if_listed.1 ⟨.unfinished, false, 3⟩ "list" ['a', '1'] "digit"
    "item" (by decide) undefined⟩, finishes, undefined_only_if_listed.2 _ _ rfl finishes false 3
      "list" ['a', '1'] "digit" "item" (by decide)⟩

end ParametricGrammar
