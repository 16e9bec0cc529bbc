import ParametricGrammar.Proofs.Dialect.Concatenations
import ParametricGrammar.Proofs.Dialect.Nesting
/-!
# Texts that nest too deeply

On the way down into groups inside of groups, nothing is known yet about the productions that are
entered, as none of them has ended. So a run enters six of them for each group, and it gets nowhere
if there is not as much room. No grammar text with 170 nested groups is read at all.
-/

namespace ParametricGrammar

namespace Bnf

namespace Dialect

variable {room : ℕ} {known found : Set Spot} {spot other : Spot} {asked spots more : List Spot}
  {reading : Reading} {ahead gap rest : List Char}

/-! ### Runs that get nowhere -/

/-- No run with some room gets past some spots. -/
def Stuck (room : ℕ) (known : Set Spot) (spots : List Spot) : Prop :=
  ∀ after, ¬ Explores room known spots after

namespace Stuck

/-- A production that is not known is entered, so a run gets stuck where its body does. -/
theorem enter (new : spot ∉ known)
    (inside : ∀ less < room, ∀ asked reading, spot.Holds asked reading → Stuck less known asked) :
    Stuck room known (spot :: spots) := by
  intro after explores
  cases explores with
  | known among => exact new among
  | enter _ holds below => exact inside _ (Nat.lt_succ_self _) _ _ holds _ below

private theorem behind
    (later : ∀ middle, Explores room known spots middle → Stuck room middle more) :
    Stuck room known (spots ++ more) := by
  intro after explores
  obtain ⟨middle, first, last⟩ := explores_append.mp explores
  exact later middle first after last

end Stuck

/-! ### What is known on the way down -/

/-- The productions between an alternation and the groups in it. -/
def winding : List String :=
  ["alternation", "sequence", "difference", "quantified", "atom", "group"]

/-- Nothing is known about the productions on the way down to a group. -/
def Shallow (known : Set Spot) : Prop := ∀ spot ∈ known, spot.name ∉ winding

private theorem Shallow.after (shallow : Shallow known) (explores : Explores room known spots found)
    (apart : ∀ spot ∈ spots, ∀ below, spot.Reaches below → below.name ∉ winding) :
    Shallow found := by
  intro below among
  rcases explores.found among with among | ⟨spot, member, reaches⟩
  · exact shallow below among
  · exact apart spot member below reaches

private theorem notMem_winding_of_reaches (flat : isFlat spot.name = true)
    (reaches : spot.Reaches other) :
    other.name ∉ winding := by
  have still : isFlat other.name = true := by
    induction reaches with
    | refl => exact flat
    | tail _ asks induction =>
        obtain ⟨_, _, ⟨body, member, traces⟩, among⟩ := asks
        have lower := rank_lt_of_mem member induction (traces.mem_references among)
        exact decide_eq_true (lower.trans (of_decide_eq_true induction))
  have apart : ∀ name ∈ winding, isFlat name = false := by decide
  intro winds
  rw [apart _ winds] at still
  cases still

/-! ### Ways down -/

section Ways

variable {name called : String} {nodes : List Node}

private theorem exists_asked_of_first_call
    (traces : Traces (.sequence (.call called :: nodes)) ahead asked reading) :
    ∃ more, asked = ⟨called, ahead⟩ :: more := by
  rcases traces_sequence_cons.mp traces with ⟨head, -⟩ | ⟨_, behind, _, _, _, head, -, rfl, -⟩
  · obtain ⟨rfl, -⟩ := traces_call.mp head
    exact ⟨[], rfl⟩
  · obtain ⟨rfl, -⟩ := traces_call.mp head
    exact ⟨behind, rfl⟩

/-- A production that starts with a call gets stuck one call above it. -/
theorem Stuck.of_call (called : String)
    (member : (name, .sequence (.call called :: nodes)) ∈ rules) (winds : name ∈ winding)
    (shallow : Shallow known)
    (below : ∀ less < room, ∀ more, Stuck less known (⟨called, ahead⟩ :: more)) :
    Stuck room known (⟨name, ahead⟩ :: spots) := by
  refine .enter (fun among => shallow _ among winds) fun less fewer asked reading holds => ?_
  obtain ⟨more, rfl⟩ := exists_asked_of_first_call ((holds_iff member).mp holds)
  exact below less fewer more

end Ways

private theorem Stuck.sequence {depth : ℕ} (shallow : Shallow known)
    (atom : ∀ less ≤ depth, ∀ more, Stuck less known (⟨"atom", ahead⟩ :: more))
    (few : room ≤ depth + 3) : Stuck room known (⟨"sequence", ahead⟩ :: spots) := by
  refine .of_call "difference" (by simp [rules]; rfl) (by decide) shallow fun room fewer _ => ?_
  refine .of_call "quantified" (by simp [rules]; rfl) (by decide) shallow fun room fewer' _ => ?_
  refine .of_call "atom" (by simp [rules]; rfl) (by decide) shallow fun room fewer'' more => ?_
  exact atom room (by omega) more

/-- An alternation asks for a sequence behind spaces and comments. -/
theorem Stuck.alternation {depth : ℕ} (shallow : Shallow known)
    (sequence : ∀ known, Shallow known → ∀ middle, Leads ahead middle → ∀ less ≤ depth, ∀ more,
      Stuck less known (⟨"sequence", middle⟩ :: more))
    (few : room ≤ depth + 1) : Stuck room known (⟨"alternation", ahead⟩ :: spots) := by
  have winds : "alternation" ∈ winding := by decide
  refine .enter (fun among => shallow _ among winds) fun less fewer asked reading holds => ?_
  obtain ⟨body, member, traces⟩ := holds
  obtain rfl := body_unique member (by simp [rules]; rfl)
  rcases traces_sequence_cons.mp traces with
    ⟨head, -⟩ | ⟨_, behind, _, middle, _, head, tail, rfl, -⟩
  · obtain ⟨-, _, _, _, _, -, -, none⟩ := traces_ignorable.mp head
    cases none
  · have leads := Leads.of_call head
    obtain ⟨rfl, -⟩ := traces_call.mp head
    obtain ⟨more, rfl⟩ := exists_asked_of_first_call tail
    refine .behind fun found explores => ?_
    refine sequence found (shallow.after explores ?_) middle leads less (by omega) more
    intro spot member below reaches
    obtain rfl := List.mem_singleton.mp member
    have flat : isFlat "s-ignorable" = true := by decide
    exact notMem_winding_of_reaches flat reaches

/-- Ignorable text leads to a round bracket behind it. -/
theorem leads_bracket (ignorable : Ignorable gap) : Leads (gap ++ '(' :: ahead) ('(' :: ahead) := by
  have takes : Takes 3 (.call "s-ignorable") gap ('(' :: ahead) (Dialect.named "s-ignorable") :=
    takes_ignorable ignorable (by simp; decide)
  obtain ⟨_, _, traces⟩ := takes.exists_traces (by decide)
  exact .of_call traces

private theorem Stuck.group {depth : ℕ} (shallow : Shallow known)
    (alternation : ∀ less ≤ depth, ∀ more, Stuck less known (⟨"alternation", ahead⟩ :: more))
    (few : room ≤ depth + 1) : Stuck room known (⟨"group", '(' :: ahead⟩ :: spots) := by
  have winds : "group" ∈ winding := by decide
  refine .enter (fun among => shallow _ among winds) fun less fewer asked reading holds => ?_
  obtain ⟨body, member, traces⟩ := holds
  obtain rfl := body_unique member (by simp [rules]; rfl)
  rcases traces_sequence_cons.mp traces with
    ⟨head, -⟩ | ⟨_, behind, _, middle, _, head, tail, rfl, -⟩
  · obtain ⟨-, ⟨_, -, none⟩ | ⟨differs, -⟩⟩ := traces_literal.mp head
    · cases none
    · exact absurd (List.prefix_append ['('] ahead) differs
  · obtain ⟨rfl, rfl, spelled⟩ := traces_literal_some.mp head
    obtain rfl : ahead = middle := (List.cons.inj spelled).2
    obtain ⟨more, rfl⟩ := exists_asked_of_first_call tail
    exact alternation less (by omega) more

/-- A lookaround asks for nothing at a round bracket. -/
theorem notMem_winding_of_lookaround
    (reaches : (⟨"lookaround", '(' :: ahead⟩ : Spot).Reaches other) : other.name ∉ winding := by
  have apart : "lookaround" ∉ winding := by decide
  rcases reaches.cases_head with rfl | ⟨next, ⟨asked, reading, ⟨body, member, traces⟩, among⟩, -⟩
  · exact apart
  · obtain rfl := body_unique member (by simp [rules]; rfl)
    rcases traces_sequence_cons.mp traces with ⟨head, -⟩ | ⟨_, _, _, _, _, head, -, -, -⟩
    · obtain ⟨rfl, -⟩ := traces_literal.mp head
      cases among
    · obtain ⟨-, -, spelled⟩ := traces_literal_some.mp head
      exact absurd (List.cons.inj spelled).1 (by decide)

section Choices

variable {name : String} {nodes : List Node}

private theorem exists_asked_of_choice
    (traces : Traces (.first (.call name :: nodes)) ahead asked reading) :
    ∃ more, asked = ⟨name, ahead⟩ :: more := by
  rcases traces_first_cons.mp traces with ⟨read, -, head⟩ | ⟨_, behind, head, -, rfl⟩
  · obtain ⟨rfl, -⟩ := traces_call.mp head
    exact ⟨[], rfl⟩
  · obtain ⟨rfl, -⟩ := traces_call.mp head
    exact ⟨behind, rfl⟩

/-- A choice goes on behind what reads nothing. -/
theorem exists_asked_of_other_choice {depth : ℕ} (refuses : Refuses depth (.call name) ahead)
    (traces : Traces (.first (.call name :: nodes)) ahead asked reading) :
    ∃ behind, asked = ⟨name, ahead⟩ :: behind ∧ Traces (.first nodes) ahead behind reading := by
  rcases traces_first_cons.mp traces with ⟨read, -, head⟩ | ⟨_, behind, head, tail, rfl⟩
  · cases refuses.reads rfl head
  · obtain ⟨rfl, -⟩ := traces_call.mp head
    exact ⟨behind, rfl, tail⟩

end Choices

/-- At a round bracket an atom asks for a group once lookarounds and names in angle brackets are out
of the question. -/
theorem Stuck.atom {depth : ℕ} (shallow : Shallow known)
    (alternation : ∀ known, Shallow known → ∀ less ≤ depth, ∀ more,
      Stuck less known (⟨"alternation", ahead⟩ :: more))
    (few : room ≤ depth + 2) : Stuck room known (⟨"atom", '(' :: ahead⟩ :: spots) := by
  have winds : "atom" ∈ winding := by decide
  refine .enter (fun among => shallow _ among winds) fun less fewer asked reading holds => ?_
  obtain ⟨body, member, traces⟩ := holds
  obtain rfl := body_unique member (by simp [rules]; rfl)
  have lookaround : Refuses 1 (.call "lookaround") ('(' :: ahead) := refuses_lookaround (by simp)
  have special : Refuses 1 (.call "special") ('(' :: ahead) := refuses_special (by simp)
  obtain ⟨_, rfl, others⟩ := exists_asked_of_other_choice lookaround traces
  obtain ⟨_, rfl, groups⟩ := exists_asked_of_other_choice special others
  obtain ⟨more, rfl⟩ := exists_asked_of_choice groups
  change Stuck less known ([⟨"lookaround", '(' :: ahead⟩, ⟨"special", '(' :: ahead⟩] ++
    ⟨"group", '(' :: ahead⟩ :: more)
  refine .behind fun found explores => ?_
  have shallow' : Shallow found := by
    refine shallow.after explores fun spot member below reaches => ?_
    simp only [List.mem_cons, List.not_mem_nil, or_false] at member
    rcases member with rfl | rfl
    · exact notMem_winding_of_lookaround reaches
    · have flat : isFlat "special" = true := by decide
      exact notMem_winding_of_reaches flat reaches
  exact .group shallow' (alternation found shallow') (by omega)

/-- A run gets stuck in nested groups without six calls for each of them, and five more. -/
theorem Stuck.groups (count : ℕ) (ignorable : Ignorable gap) (shallow : Shallow known)
    (few : room ≤ 6 * count + 4) :
    Stuck room known (⟨"alternation", gap ++ (List.replicate count '(' ++ rest)⟩ :: spots) := by
  induction count generalizing room known spots gap with
  | zero =>
      refine .alternation shallow (fun known shallow middle _ less few more => ?_) few
      refine .sequence shallow (fun less none more => ?_) few
      have winds : "atom" ∈ winding := by decide
      refine .enter (fun among => shallow _ among winds) fun lesser fewer => ?_
      omega
  | succ count induction =>
      rw [List.replicate_succ, List.cons_append]
      refine .alternation shallow (fun known shallow middle leads less few more => ?_) few
      obtain rfl := (leads_bracket ignorable).unique leads
      refine .sequence shallow (fun less few more => ?_) few
      exact .atom shallow (fun known shallow less few more => induction .nil shallow few) few

/-! ### Texts with nested groups -/

private theorem exists_asked_behind {nodes others : List Node} {middle : List Char}
    {before : List Spot} {parts : List Part}
    (left : Traces (.sequence nodes) ahead before (some (parts, middle)))
    (traces : Traces (.sequence (nodes ++ others)) ahead asked reading) :
    ∃ behind later, asked = before ++ behind ∧ Traces (.sequence others) middle behind later := by
  induction nodes generalizing ahead before parts asked reading with
  | nil =>
      obtain ⟨rfl, same⟩ := traces_sequence_nil.mp left
      cases same
      exact ⟨asked, reading, rfl, traces⟩
  | cons node nodes induction =>
      obtain ⟨_, _, _, _, _, head, row, rfl, rfl⟩ := traces_sequence_cons_some.mp left
      rcases traces_sequence_cons.mp traces with ⟨misses, -⟩ | ⟨_, _, _, _, _, head', tail, rfl, -⟩
      · cases (head.unique misses).2
      · obtain ⟨rfl, same⟩ := head.unique head'
        cases same
        obtain ⟨behind, later, rfl, others⟩ := induction row tail
        exact ⟨behind, later, (List.append_assoc ..).symm, others⟩

/-- How a clause with a bare name starts. -/
def clauseHead (name : List Char) : List Char := name ++ [' ', ':', ':', '=']

private theorem takes_opening {name : List Char} (valid : isName name = true) (depth : ℕ) :
    Takes (depth + 8) (.sequence opening) (clauseHead name) rest anything := by
  obtain ⟨char, more, same, opens⟩ := exists_opens_of_isName valid ([' ', ':', ':', '='] ++ rest)
  have blanks : Takes (depth + 8) (.call "s-ignorable") [] (clauseHead name ++ rest)
      (Dialect.named "s-ignorable") := by
    refine takes_ignorable .nil ?_
    rw [clauseHead, List.append_assoc, same]
    simpa using (plain_of_opensAtom opens).1
  have row := blanks.andThen (((takes_label readsLabel_none valid).of_rest
    (List.append_assoc _ _ _)).andThen ((takes_name valid rfl).andThen
      ((takes_list readsList_none (by simp)).andThen ((takes_space rfl).andThen
        (takes_literal "::=" rfl).last))))
  exact row.anything

variable {name : List Char} {count : ℕ}

private theorem Stuck.production (valid : isName name = true) (ignorable : Ignorable gap)
    (few : room ≤ 6 * count + 5) :
    Stuck room ∅
      (⟨"production", clauseHead name ++ (gap ++ (List.replicate count '(' ++ rest))⟩ ::
        spots) := by
  refine .enter id fun less fewer asked reading holds => ?_
  obtain ⟨before, parts, head⟩ := (takes_opening valid 0).exists_traces (by decide)
  obtain ⟨behind, later, rfl, traces⟩ :=
    exists_asked_behind head ((holds_iff mem_production).mp holds)
  obtain ⟨more, rfl⟩ := exists_asked_of_first_call traces
  refine .behind fun found explores => .groups count ignorable ?_ (by omega)
  have shallow : Shallow ∅ := fun _ among => among.elim
  refine shallow.after explores fun spot among below reaches => ?_
  have flat : (Node.sequence opening).references.all isFlat = true := rfl
  exact notMem_winding_of_reaches (List.all_eq_true.mp flat _ (head.mem_references among)) reaches

private theorem exists_asked_of_repetition {called : String}
    (traces : Traces (.zeroOrMore (.call called)) ahead asked reading) :
    ∃ more, asked = ⟨called, ahead⟩ :: more := by
  rcases traces_zeroOrMore.mp traces with
    ⟨head, -⟩ | ⟨_, head, -⟩ | ⟨_, behind, _, _, _, _, head, -, -, rfl, -⟩
  · exact ⟨[], (traces_call.mp head).1⟩
  · exact ⟨[], (traces_call.mp head).1⟩
  · obtain ⟨rfl, -⟩ := traces_call.mp head
    exact ⟨behind, rfl⟩

private theorem Stuck.text (valid : isName name = true) (ignorable : Ignorable gap)
    (few : room ≤ 6 * count + 6) :
    Stuck room ∅
      [⟨"grammar", clauseHead name ++ (gap ++ (List.replicate count '(' ++ rest))⟩] := by
  refine .enter id fun less fewer asked reading holds => ?_
  obtain ⟨body, member, traces⟩ := holds
  obtain rfl := body_unique member (by simp [rules]; rfl)
  have first : ∃ more, asked =
      ⟨"production", clauseHead name ++ (gap ++ (List.replicate count '(' ++ rest))⟩ :: more := by
    rcases traces_sequence_cons.mp traces with ⟨head, -⟩ | ⟨_, behind, _, _, _, head, -, rfl, -⟩
    · exact exists_asked_of_repetition head
    · obtain ⟨more, rfl⟩ := exists_asked_of_repetition head
      exact ⟨more ++ behind, rfl⟩
  obtain ⟨more, rfl⟩ := first
  exact .production valid ignorable (by omega)

private theorem parseAll_of_stuck {limit : ℕ} {text : List Char}
    (stuck : Stuck limit ∅ [⟨"grammar", text⟩]) :
    ((remembering limit).parseAll "grammar" text).1 = .error (.recursionLimitExceeded limit) := by
  obtain ⟨asked, reading, traces⟩ := exists_traces (.call "grammar") rfl text
    fun name mentioned rest _ => by
      obtain rfl := List.mem_singleton.mp mentioned
      exact Spot.settled _ mem_wholeText
  obtain ⟨rfl, -⟩ := traces_call.mp traces
  rcases goes_wholeRun limit traces with ⟨after, explores, -⟩ | ⟨-, exceeded⟩
  · exact absurd explores (stuck after)
  · unfold wholeRun at exceeded
    simp only [Setting.parseAll, limit_remembering, exceeded]

/-- A text that nests too deeply is turned down with an error of the run: one that starts with a
clause for as many as 170 round brackets, whatever they hold and whatever comes behind them. -/
theorem compile_of_groups {text : String} (valid : isName name = true) (ignorable : Ignorable gap)
    (many : 170 ≤ count)
    (spelled : text.toList = clauseHead name ++ (gap ++ (List.replicate count '(' ++ rest))) :
    compile text = .error (.run (.recursionLimitExceeded 1024)) := by
  have stuck : Stuck 1024 ∅ [⟨"grammar", text.toList⟩] := by
    rw [spelled]
    exact .text valid ignorable (by omega)
  have exceeded : ((setting grammar).parseAll "grammar" text.toList).1 =
      .error (.recursionLimitExceeded 1024) := parseAll_of_stuck stuck
  have reads : treeOf grammar text.toList = .error (.run (.recursionLimitExceeded 1024)) := by
    unfold treeOf
    rw [exceeded]
  rw [compile, compileWith, reads]
  rfl

/-- The only error of a run that comes up for a text is the exceeded limit. It takes 169 brackets
that may open a group or a lookaround, and 170 groups inside of each other are always enough. -/
theorem nesting_exceeds_limit (text : String) :
    (∀ error, compile text = .error (.run error) →
      error = .recursionLimitExceeded 1024 ∧ 169 ≤ openings text.toList) ∧
    ∀ name gap count rest, isName name = true → Ignorable gap → 170 ≤ count →
      text.toList = clauseHead name ++ (gap ++ (List.replicate count '(' ++ rest)) →
        compile text = .error (.run (.recursionLimitExceeded 1024)) :=
  ⟨fun _ fails => run_error_of_compile fails, fun _ _ _ _ valid ignorable many spelled =>
    compile_of_groups valid ignorable many spelled⟩

/-- A clause for one character inside of groups. -/
def nestedText (count : ℕ) : String :=
  .ofList (clauseHead ['a'] ++ ([' '] ++ (List.replicate count '(' ++
    (['\'', 'x', '\''] ++ List.replicate count ')'))))

theorem nestedText_exceeds_limit :
    (isName ['a'] = true ∧ Ignorable [' ']) ∧
      compile (nestedText 170) = .error (.run (.recursionLimitExceeded 1024)) ∧
      169 ≤ openings (nestedText 170).toList := by
  have valid : isName ['a'] = true := rfl
  have ignorable : Ignorable [' '] := .blank rfl .nil
  have fails := (nesting_exceeds_limit (nestedText 170)).2 ['a'] [' '] 170 _ valid ignorable le_rfl
    String.toList_ofList
  exact ⟨⟨valid, ignorable⟩, fails, ((nesting_exceeds_limit (nestedText 170)).1 _ fails).2⟩

/-- An error of a run does come up for a text. -/
theorem compile_nestedText :
    compile (nestedText 170) = .error (.run (.recursionLimitExceeded 1024)) := by
  have valid : isName ['a'] = true := rfl
  exact compile_of_groups valid (.blank rfl .nil) le_rfl String.toList_ofList

end Dialect

end Bnf

end ParametricGrammar
