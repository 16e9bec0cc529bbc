import ParametricGrammar.Proofs.WellFormed
/-!
# Repetition is greedy iteration

A repetition follows a chain of matches, each at the end of the one before, until its upper bound is
met or its child does not match. Without an upper bound the chain also ends with its first empty
match, which would come again for ever. The chain depends on the meaning of the child alone, and
neither on a memory nor on a limit. A repetition matches if its chain is long enough, with all the
trees of the chain.

So an upper bound that is taken away can make a repetition fail, in one case only: the chain without
a bound ends with an empty match before the minimum is met.
-/

namespace ParametricGrammar

/-- What an expression yields at a place: the answer of fresh sessions from some limit on, with a
memory or without one. -/
def Node.Yields (grammar : Grammar) (node : Node) (parameters : Parameters) (place : Cursor)
    (outcome : Outcome) : Prop :=
  ∃ least : Nat, ∀ limit ≥ least, ∀ cached : Bool,
    ((Session.fresh ⟨grammar, cached, limit⟩ place.whole).ask
      ⟨place.offset, parameters, node⟩).1 = outcome

private theorem Node.Yields.unique {grammar : Grammar} {node : Node} {parameters : Parameters}
    {place : Cursor} {left right : Outcome} (yields : node.Yields grammar parameters place left)
    (yields' : node.Yields grammar parameters place right) : left = right := by
  obtain ⟨least, answers⟩ := yields
  obtain ⟨least', answers'⟩ := yields'
  have same := answers (max least least') (le_max_left _ _) true
  rw [← same]
  exact answers' (max least least') (le_max_right _ _) true

/-- What can be derived from outside is what an expression yields. -/
theorem Derives.yields {grammar : Grammar} {depth : ℕ∞} {node : Node} {parameters : Parameters}
    {place : Cursor} {outcome : Outcome}
    (derives : Derives grammar depth outside (.node node) parameters place outcome) :
    node.Yields grammar parameters place outcome := by
  obtain ⟨least, finite⟩ := derives.exists_depth
  refine ⟨least, fun limit ge cached => ?_⟩
  have found : Cursor.at? place.whole place.offset = some place :=
    Cursor.at?_eq_some_iff.mpr ⟨rfl, rfl⟩
  have reproduced := finite.reproduces ⟨grammar, cached, limit⟩ limit (by exact_mod_cast ge) .fresh
    Memory.sound_fresh
  simp only [Session.ask, Session.parse, Setting.parse, Session.fresh, found]
  exact reproduced

/-! ### Chains of matches -/

/-- A match in a chain: the trees that it leaves and the place behind it. -/
structure Link where
  nodes : List Tree
  stop : Cursor

/-- The place behind the last link of a chain from a place. -/
def chainEnd : Cursor → List Link → Cursor
  | place, [] => place
  | _, link :: links => chainEnd link.stop links

/-- The greedy chain of matches from a place, at most so many if there is an upper bound. -/
inductive Chain (child : Cursor → Outcome → Prop) : Option Nat → Cursor → List Link → Prop where
  /-- The upper bound is met. -/
  | full {place : Cursor} : Chain child (some 0) place []
  /-- The child does not match. -/
  | missed {most : Option Nat} {place : Cursor}
      (unfilled : most ≠ some 0) (misses : child place .unmatched) : Chain child most place []
  /-- Without an upper bound an empty match is the last. -/
  | still {place : Cursor} {nodes : List Tree} {stop : Cursor}
      (hits : child place (.matched nodes stop)) (stays : stop.offset = place.offset) :
      Chain child none place [⟨nodes, stop⟩]
  /-- The child matches, and the chain goes on behind it. -/
  | next {most : Option Nat} {place : Cursor} {nodes : List Tree} {stop : Cursor}
      {links : List Link} (unfilled : most ≠ some 0) (hits : child place (.matched nodes stop))
      (moves : most = none → stop.offset ≠ place.offset)
      (later : Chain child (most.map (· - 1)) stop links) :
      Chain child most place (⟨nodes, stop⟩ :: links)

namespace Chain

variable {child other : Cursor → Outcome → Prop} {most : Option Nat} {place : Cursor}
  {links links' : List Link}

theorem imp (chain : Chain child most place links)
    (all : ∀ place outcome, child place outcome → other place outcome) :
    Chain other most place links := by
  induction chain with
  | full => exact .full
  | missed unfilled misses => exact .missed unfilled (all _ _ misses)
  | still hits stays => exact .still (all _ _ hits) stays
  | next unfilled hits moves _ induction => exact .next unfilled (all _ _ hits) moves induction

/-- A place has only one greedy chain. -/
theorem unique (single : ∀ place left right, child place left → child place right → left = right)
    (chain : Chain child most place links) (chain' : Chain child most place links') :
    links = links' := by
  induction chain generalizing links' with
  | full =>
      cases chain' with
      | full => rfl
      | missed unfilled _ | next unfilled _ _ _ => exact absurd rfl unfilled
  | missed unfilled misses =>
      cases chain' with
      | full => exact absurd rfl unfilled
      | missed _ _ => rfl
      | still hits _ | next _ hits _ _ => cases single _ _ _ misses hits
  | still hits stays =>
      cases chain' with
      | missed _ misses => cases single _ _ _ misses hits
      | still hits' _ =>
          cases single _ _ _ hits hits'
          rfl
      | next _ hits' moves _ =>
          cases single _ _ _ hits hits'
          exact absurd stays (moves rfl)
  | next unfilled hits moves _ induction =>
      cases chain' with
      | full => exact absurd rfl unfilled
      | missed _ misses => cases single _ _ _ misses hits
      | still hits' stays =>
          cases single _ _ _ hits hits'
          exact absurd stays (moves rfl)
      | next _ hits' _ later' =>
          cases single _ _ _ hits hits'
          rw [induction later']

private theorem length_le_of_bounded {bound : Nat} (chain : Chain child (some bound) place links) :
    links.length ≤ bound := by
  generalize same : some bound = most at chain
  induction chain generalizing bound with
  | full | missed _ _ => exact Nat.zero_le _
  | still _ _ => cases same
  | next unfilled _ _ _ induction =>
      subst same
      have positive : bound ≠ 0 := fun zero => unfilled (congrArg some zero)
      have shorter := @induction (bound - 1) rfl
      rw [List.length_cons]
      omega

/-- Without an upper bound every link but the last moves on in the text. -/
theorem length_le_of_unbounded
    (ahead : ∀ place nodes stop, child place (.matched nodes stop) →
      stop.whole = place.whole ∧ place.offset ≤ stop.offset)
    (chain : Chain child none place links) :
    links.length ≤ byteLength place.whole - place.offset + 1 := by
  generalize same : none = most at chain
  induction chain with
  | full => cases same
  | missed _ _ => exact Nat.zero_le _
  | still _ _ => exact Nat.le_add_left 1 _
  | @next most place nodes stop links _ hits moves _ induction =>
      subst same
      obtain ⟨whole, le⟩ := ahead _ _ _ hits
      have moved := moves rfl
      have shorter := induction rfl
      have inside := stop.offset_le_byteLength
      rw [whole] at shorter inside
      rw [List.length_cons]
      omega

end Chain

/-- What a repetition comes to at the end of its chain: all its trees if it is long enough. -/
def closeChain (least : Nat) (place : Cursor) (links : List Link) : Outcome :=
  if least ≤ links.length then .matched (links.flatMap Link.nodes) (chainEnd place links)
  else .unmatched

private theorem check_eq_closeChain (least : Nat) (place : Cursor) :
    Outcome.check (least = 0) place = closeChain least place [] := by
  by_cases zero : least = 0 <;> simp [closeChain, chainEnd, zero]

private theorem closeChain_cons (least : Nat) (place : Cursor) (link : Link) (links : List Link) :
    closeChain least place (link :: links) =
      (closeChain (least - 1) link.stop links).prepend link.nodes := by
  by_cases enough : least ≤ links.length + 1
  · have rest : least - 1 ≤ links.length := by omega
    simp [closeChain, chainEnd, enough, rest]
  · have rest : ¬ least - 1 ≤ links.length := by omega
    simp only [closeChain, List.length_cons, enough, rest, if_false, Outcome.prepend_unmatched]

/-- A repetition that ends without an error has followed a greedy chain of its child to its end. -/
theorem Derives.exists_chain {grammar : Grammar} {depth : ℕ∞} {production : String} {child : Node}
    {least : Nat} {most : Option Nat} {parameters : Parameters} {place : Cursor}
    {outcome : Outcome}
    (derives : Derives grammar depth production (.repetition child least most) parameters place
      outcome)
    (ends : ∀ error, outcome ≠ .failed error) :
    ∃ links,
      Chain (Derives grammar depth production (.node child) parameters) most place links ∧
        outcome = closeChain least place links := by
  generalize same : Task.repetition child least most = task at derives
  induction derives generalizing least most with
  | full =>
      cases same
      exact ⟨[], .full, check_eq_closeChain _ _⟩
  | exhausted unfilled inside _ =>
      cases same
      exact ⟨[], .missed unfilled inside, check_eq_closeChain _ _⟩
  | repetitionFailed _ _ _ => exact absurd rfl (ends _)
  | zeroWidth inside _ =>
      cases same
      refine ⟨_, .still inside rfl, ?_⟩
      rw [closeChain_cons, check_eq_closeChain]
  | @again most _ _ _ _ cursor nodes stop least outcome unfilled inside moves _ _ induction =>
      cases same
      have rest : ∀ error, outcome ≠ .failed error := by
        rintro error rfl
        exact ends error rfl
      obtain ⟨links, chain, closes⟩ := induction rest rfl
      have moved : most = none → stop.offset ≠ cursor.offset := by
        intro unbounded
        apply mt (Cursor.eq_of_offset_eq inside.whole_eq)
        exact moves unbounded
      refine ⟨⟨nodes, stop⟩ :: links, .next unfilled inside moved chain, ?_⟩
      rw [closeChain_cons, ← closes]
  | _ => cases same

/-- A repetition whose bounds can be read has a greedy chain of what its child yields, unless it
ends in an error. -/
theorem Derives.exists_chain_of_repeated {grammar : Grammar} {depth : ℕ∞} {child : Node}
    {minimum : Bound} {maximum : Option Bound} {parameters : Parameters} {place : Cursor}
    {outcome : Outcome}
    (derives : Derives grammar depth outside (.node (.repeated child minimum maximum)) parameters
      place outcome)
    (ends : ∀ error, outcome ≠ .failed error) :
    ∃ least most links, minimum.resolve parameters = .ok least ∧
      maximum.mapM (Bound.resolve parameters) = .ok most ∧
      Chain (child.Yields grammar parameters) most place links ∧
      outcome = closeChain least place links := by
  cases derives with
  | minimumUnbound _ | maximumUnbound _ _ => exact absurd rfl (ends _)
  | bounded atLeast atMost repeats =>
      obtain ⟨links, chain, closes⟩ := repeats.exists_chain ends
      refine ⟨_, _, links, atLeast, ?_, chain.imp fun _ _ inside => inside.yields, closes⟩
      rw [Option.mapM_some, atMost]
      rfl
  | unbounded atLeast repeats =>
      obtain ⟨links, chain, closes⟩ := repeats.exists_chain ends
      exact ⟨_, none, links, atLeast, rfl, chain.imp fun _ _ inside => inside.yields, closes⟩

/-! ### Answers of a session -/

namespace Session

variable {setting : Setting} {text : List Char} {earlier : List Query} {parameters : Parameters}
  {place : Cursor}

/-- What a session answers to a query at a place, if not an error, is derivable there. -/
theorem derives_of_answer {node : Node} {outcome : Outcome} (whole : place.whole = text)
    (answer : (((fresh setting text).after earlier).ask ⟨place.offset, parameters, node⟩).1 =
      outcome)
    (ends : ∀ error, outcome ≠ .failed error) :
    Derives setting.grammar ⊤ outside (.node node) parameters place outcome := by
  have agrees := ((sound_fresh setting text).after earlier).answer ⟨place.offset, parameters, node⟩
  rw [answer, setting_after, text_after] at agrees
  cases agrees.resolve_left (ends _) with
  | nowhere missing => exact absurd rfl (missing place whole)
  | @place cursor _ whole' located derives =>
      obtain rfl := Cursor.eq_of_offset_eq (whole'.trans whole.symm) located
      exact derives

end Session

/-- What an expression yields, if not an error, can be derived. -/
theorem Node.Yields.derives {grammar : Grammar} {node : Node} {parameters : Parameters}
    {place : Cursor} {outcome : Outcome} (yields : node.Yields grammar parameters place outcome)
    (ends : ∀ error, outcome ≠ .failed error) :
    Derives grammar ⊤ outside (.node node) parameters place outcome := by
  obtain ⟨least, answers⟩ := yields
  have answer : (((Session.fresh ⟨grammar, true, least⟩ place.whole).after []).ask
      ⟨place.offset, parameters, node⟩).1 = outcome := answers least le_rfl true
  exact Session.derives_of_answer rfl answer ends

/-- The bounds of a repetition are 32-bit numbers. -/
theorem Bound.lt_of_resolve {parameters : Parameters} {bound : Bound} {count : Nat}
    (resolved : bound.resolve parameters = .ok count) : count < 2 ^ 32 := by
  cases bound with
  | fixed value =>
      cases resolved
      exact value.toNat_lt
  | computed binding =>
      rw [resolve] at resolved
      cases integer : binding.resolveInt parameters with
      | error cause => simp [integer, Except.map] at resolved
      | ok value =>
          rw [integer] at resolved
          cases resolved
          have less := value.toInt_lt
          change value.toInt.toNat < 2 ^ 32
          omega

/-- An upper bound that is there is read as a count. -/
theorem Bound.exists_of_mapM_resolve {parameters : Parameters} {maximum : Bound}
    {most : Option Nat}
    (resolved : (some maximum).mapM (Bound.resolve parameters) = .ok most) :
    ∃ count, maximum.resolve parameters = .ok count ∧ most = some count := by
  rw [Option.mapM_some] at resolved
  cases read : maximum.resolve parameters with
  | error cause =>
      rw [read] at resolved
      cases resolved
  | ok count =>
      rw [read] at resolved
      cases resolved
      exact ⟨count, rfl, rfl⟩

theorem Bound.lt_of_mapM_resolve {parameters : Parameters} {maximum : Option Bound} {count : Nat}
    (resolved : maximum.mapM (Bound.resolve parameters) = .ok (some count)) : count < 2 ^ 32 := by
  cases maximum with
  | none => cases resolved
  | some maximum =>
      obtain ⟨_, read, same⟩ := exists_of_mapM_resolve resolved
      cases same
      exact lt_of_resolve read

/-- What it means that an answer to a repetition comes from a greedy chain of its child. -/
structure Iterates (grammar : Grammar) (child : Node) (parameters : Parameters) (place : Cursor)
    (least : Nat) (most : Option Nat) (links : List Link) (answer : Outcome) : Prop where
  chain : Chain (child.Yields grammar parameters) most place links
  unique : ∀ others, Chain (child.Yields grammar parameters) most place others → others = links
  answer_eq : answer =
    if least ≤ links.length then .matched (links.flatMap Link.nodes) (chainEnd place links)
    else .unmatched
  length_le : ∀ bound, most = some bound → links.length ≤ bound
  length_le_bytes : most = none → links.length ≤ byteLength place.whole - place.offset + 1
  /-- Matches can be counted with 32 bits. -/
  length_lt : byteLength place.whole < 2 ^ 31 → links.length < 2 ^ 32

private theorem Derives.exists_iterates {grammar : Grammar} {child : Node} {minimum : Bound}
    {maximum : Option Bound} {parameters : Parameters} {place : Cursor} {answer : Outcome}
    (derives : Derives grammar ⊤ outside (.node (.repeated child minimum maximum)) parameters place
      answer)
    (ends : ∀ error, answer ≠ .failed error) :
    ∃ least most links, minimum.resolve parameters = .ok least ∧
      maximum.mapM (Bound.resolve parameters) = .ok most ∧
      Iterates grammar child parameters place least most links answer := by
  obtain ⟨least, most, links, atLeast, atMost, chain, closes⟩ :=
    derives.exists_chain_of_repeated ends
  have bounded : ∀ bound, most = some bound → links.length ≤ bound := by
    rintro bound rfl
    exact chain.length_le_of_bounded
  have unbounded : most = none → links.length ≤ byteLength place.whole - place.offset + 1 := by
    rintro rfl
    apply chain.length_le_of_unbounded
    intro start nodes stop hits
    have inside := hits.derives (by simp)
    exact ⟨inside.whole_eq, inside.offset_le⟩
  have unique : ∀ others, Chain (child.Yields grammar parameters) most place others →
      others = links :=
    fun others chain' => chain'.unique (fun _ _ _ left right => left.unique right) chain
  refine ⟨least, most, links, atLeast, atMost, chain, unique, closes, bounded, unbounded, ?_⟩
  intro short
  cases most with
  | none =>
      have := unbounded rfl
      omega
  | some bound =>
      have := bounded bound rfl
      have := Bound.lt_of_mapM_resolve atMost
      omega

namespace Session

/-- Repetition is bounded greedy iteration. Whatever a session was asked before, with a memory or
without one: its answer to a repetition at a character boundary, unless it is an error, is what the
greedy chain of the child's matches gives there, and an optional expression always matches. -/
theorem ask_repeated (setting : Setting) (text : List Char) (earlier : List Query) (offset : Nat)
    (boundary : IsBoundary text offset) (parameters : Parameters) (child : Node) :
    let session := (fresh setting text).after earlier
    (∀ minimum maximum,
      let answer := (session.ask ⟨offset, parameters, .repeated child minimum maximum⟩).1
      (∀ error, answer ≠ .failed error) →
        ∃ place least most links, place.whole = text ∧ place.offset = offset ∧
          minimum.resolve parameters = .ok least ∧
          maximum.mapM (Bound.resolve parameters) = .ok most ∧
          Iterates setting.grammar child parameters place least most links answer) ∧
      (session.ask ⟨offset, parameters, .optional child⟩).1 ≠ .unmatched := by
  obtain ⟨before, rest, rfl, rfl⟩ := boundary
  obtain ⟨place, spans, -⟩ : ∃ place, (Cursor.start (before ++ rest)).Spans before place ∧
      place.rest = rest := Cursor.exists_spans rfl
  have located : place.offset = byteLength before := by simpa using spans.offset_eq
  rw [← located]
  constructor
  · intro minimum maximum answer answered
    have derives := derives_of_answer spans.whole_eq rfl answered
    obtain ⟨least, most, links, atLeast, atMost, iterates⟩ := derives.exists_iterates answered
    exact ⟨place, least, most, links, spans.whole_eq, rfl, atLeast, atMost, iterates⟩
  · intro unmatched
    have derives := derives_of_answer spans.whole_eq unmatched (by simp)
    obtain ⟨least, most, links, atLeast, -, iterates⟩ := derives.exists_iterates (by simp)
    have none : least = 0 := (Except.ok.inj atLeast).symm
    have closes := iterates.answer_eq
    rw [none, if_pos (Nat.zero_le _)] at closes
    cases closes

/-- The letters of a word that something else follows. -/
theorem ask_letters :
    let answer :=
      ((fresh ⟨Grammar.words, false, 1⟩ ['o', 'k', '!']).ask
        ⟨0, .empty, .oneOrMore (.call "letter")⟩).1
    IsBoundary ['o', 'k', '!'] 0 ∧ (∀ error, answer ≠ .failed error) ∧
      ∃ place least most links, place.whole = ['o', 'k', '!'] ∧ place.offset = 0 ∧
        (Bound.fixed 1).resolve .empty = .ok least ∧
        (none : Option Bound).mapM (Bound.resolve .empty) = .ok most ∧
        Iterates Grammar.words (.call "letter") .empty place least most links answer := by
  intro answer
  have boundary : IsBoundary ['o', 'k', '!'] 0 := ⟨[], _, rfl, rfl⟩
  have answered : ∀ error, answer ≠ .failed error := by
    have matched : answer.isMatched = true := rfl
    rintro error failed
    rw [failed] at matched
    cases matched
  have iterates := ask_repeated ⟨Grammar.words, false, 1⟩ ['o', 'k', '!'] [] 0 boundary .empty
    (.call "letter")
  exact ⟨boundary, answered, iterates.1 (.fixed 1) none answered⟩

end Session

/-! ### Repetition with and without an upper bound -/

/-- A chain ends with an empty match. -/
def EndsStill (place : Cursor) (links : List Link) : Prop :=
  ∃ earlier link, links = earlier ++ [link] ∧ link.stop.offset = (chainEnd place earlier).offset

private theorem EndsStill.cons {place : Cursor} {link : Link} {links : List Link}
    (still : EndsStill link.stop links) : EndsStill place (link :: links) := by
  obtain ⟨earlier, last, rfl, stays⟩ := still
  exact ⟨link :: earlier, last, rfl, stays⟩

/-- A chain without an upper bound goes at least as far as one with a bound, unless it ends with an
empty match. -/
theorem Chain.length_le_or_endsStill {child : Cursor → Outcome → Prop} {bound : Nat}
    {place : Cursor} {links others : List Link}
    (single : ∀ place left right, child place left → child place right → left = right)
    (bounded : Chain child (some bound) place others) (unbounded : Chain child none place links) :
    others.length ≤ links.length ∨ EndsStill place links := by
  generalize same : some bound = most at bounded
  induction bounded generalizing bound links with
  | full | missed _ _ => exact .inl (Nat.zero_le _)
  | still _ _ => cases same
  | next _ hits _ _ induction =>
      subst same
      cases unbounded with
      | missed _ misses => cases single _ _ _ hits misses
      | still _ stays => exact .inr ⟨[], _, rfl, stays⟩
      | next _ hits' _ later =>
          cases single _ _ _ hits hits'
          rcases induction later rfl with shorter | ends
          · exact .inl (Nat.succ_le_succ shorter)
          · exact .inr ends.cons

namespace Session

/-- Taking away the upper bound of a repetition that matches makes it fail in one case only: its
chain ends with an empty match before the minimum is met, so the minimum is at least two. -/
theorem unbounded_matches_or_endsStill (setting : Setting) (text : List Char)
    (earlier : List Query) (offset : Nat) (parameters : Parameters) (child : Node)
    (minimum maximum : Bound) {nodes : List Tree} {stop : Cursor}
    (bounded : (((fresh setting text).after earlier).ask
      ⟨offset, parameters, .repeated child minimum (some maximum)⟩).1 = .matched nodes stop)
    (answered : ∀ error, (((fresh setting text).after earlier).ask
      ⟨offset, parameters, .repeated child minimum none⟩).1 ≠ .failed error) :
    let answer := (((fresh setting text).after earlier).ask
      ⟨offset, parameters, .repeated child minimum none⟩).1
    answer.isMatched = true ∨
      ∃ place least links, place.whole = text ∧ place.offset = offset ∧
        minimum.resolve parameters = .ok least ∧ 2 ≤ least ∧ links.length < least ∧
        EndsStill place links ∧
        Iterates setting.grammar child parameters place least none links answer := by
  intro answer
  obtain ⟨place, whole, rfl⟩ : ∃ place : Cursor, place.whole = text ∧ place.offset = offset := by
    have agrees := ((sound_fresh setting text).after earlier).answer
      ⟨offset, parameters, .repeated child minimum (some maximum)⟩
    rw [bounded, setting_after, text_after] at agrees
    cases agrees.resolve_left (by simp) with
    | place whole located _ => exact ⟨_, whole, located⟩
  obtain ⟨least, most, others, atLeast, atMost, iterates⟩ :=
    (derives_of_answer whole bounded (by simp)).exists_iterates (by simp)
  obtain ⟨least', most', links, atLeast', none, iterates'⟩ :=
    (derives_of_answer whole rfl answered).exists_iterates answered
  obtain rfl := Except.ok.inj (atLeast.symm.trans atLeast')
  cases none
  have reached : least ≤ others.length := by
    by_contra short
    have closes := iterates.answer_eq
    rw [if_neg short] at closes
    cases closes
  have closes : answer = _ := iterates'.answer_eq
  by_cases enough : least ≤ links.length
  · left
    rw [closes, if_pos enough]
    rfl
  · right
    obtain ⟨bound, -, rfl⟩ := Bound.exists_of_mapM_resolve atMost
    have further := iterates.chain.length_le_or_endsStill
      (fun _ _ _ left right => left.unique right) iterates'.chain
    have still : EndsStill place links := further.resolve_left (by omega)
    have positive : 0 < links.length := by
      obtain ⟨earlier, link, rfl, -⟩ := still
      simp
    exact ⟨place, least, links, whole, rfl, atLeast, by omega, by omega, still, iterates'⟩

/-- Two empty matches are found up to a bound of two, but without a bound the first one ends the
repetition. -/
theorem unbounded_endsStill_at_empty :
    let session := fresh ⟨.empty, true, 1024⟩ []
    let answer := ((session.after []).ask ⟨0, .empty, .repeated .empty (.fixed 2) none⟩).1
    ((session.after []).ask ⟨0, .empty, .repeated .empty (.fixed 2) (some (.fixed 2))⟩).1 =
        .matched [] (.start []) ∧
      (∀ error, answer ≠ .failed error) ∧
      (answer.isMatched = true ∨ ∃ place least links, place.whole = [] ∧ place.offset = 0 ∧
        (Bound.fixed 2).resolve .empty = .ok least ∧ 2 ≤ least ∧ links.length < least ∧
        EndsStill place links ∧ Iterates .empty .empty .empty place least none links answer) := by
  intro session answer
  have bounded : ((session.after []).ask
      ⟨0, .empty, .repeated .empty (.fixed 2) (some (.fixed 2))⟩).1 = .matched [] (.start []) := rfl
  have answered : ∀ error, answer ≠ .failed error := by
    have unmatched : answer = .unmatched := rfl
    simp [unmatched]
  exact ⟨bounded, answered, unbounded_matches_or_endsStill ⟨.empty, true, 1024⟩ [] [] 0 .empty
    .empty (.fixed 2) (.fixed 2) bounded answered⟩

/-- Taking away an upper bound can turn a match into a failure. -/
theorem unbounded_endsStill_before_minimum :
    let session := fresh ⟨.empty, true, 1024⟩ []
    (session.ask ⟨0, .empty, .repeated .empty (.fixed 2) (some (.fixed 2))⟩).1 =
        .matched [] (.start []) ∧
      (session.ask ⟨0, .empty, .repeated .empty (.fixed 2) none⟩).1 = .unmatched :=
  ⟨rfl, rfl⟩

end Session

end ParametricGrammar
