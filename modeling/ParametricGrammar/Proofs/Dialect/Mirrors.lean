import Mathlib.Logic.Relation
import ParametricGrammar.Proofs.Dialect.Explorations
/-!
# Explorations of two texts

What a run knows is closed: with a spot that reads nothing it knows all that lie below. So a run
that asks for the images of some spots, or for a little more and less, gets as far as the run that
asks for these spots, also where it knows more.
-/

namespace ParametricGrammar

namespace Bnf

namespace Dialect

variable {room : ℕ} {known after others : Set Spot} {spot other below : Spot}
  {asked spots : List Spot} {reading : Reading}

/-! ### What lies below a spot -/

/-- A production asks for another one on its way. -/
def Spot.Asks (spot other : Spot) : Prop :=
  ∃ asked reading, spot.Holds asked reading ∧ other ∈ asked

/-- A production asks for another one, at once or below others. -/
abbrev Spot.Reaches : Spot → Spot → Prop := Relation.ReflTransGen Spot.Asks

/-- With a spot, a set has all those below it that read nothing. -/
def Closed (known : Set Spot) : Prop :=
  ∀ spot ∈ known, ∀ below, spot.Reaches below → below.Fails → below ∈ known

theorem closed_empty : Closed ∅ := fun _ among => among.elim

theorem refuted_empty : Refuted ∅ := fun _ among => among.elim

theorem Spot.Holds.mem_of_asks (holds : spot.Holds asked reading) (asks : spot.Asks other) :
    other ∈ asked := by
  obtain ⟨_, _, holds', among⟩ := asks
  obtain ⟨rfl, -⟩ := holds.unique holds'
  exact among

private theorem subset_learn (spot : Spot) (reading : Reading) (known : Set Spot) :
    known ⊆ spot.learn reading known := by
  cases reading with
  | none => exact Set.subset_insert _ _
  | some => exact subset_rfl

/-- What a run knows in the end it knew before, or it lies below what it asked for. -/
theorem Explores.found (explores : Explores room known spots after) (among : below ∈ after) :
    below ∈ known ∨ ∃ spot ∈ spots, spot.Reaches below := by
  induction explores with
  | nil => exact .inl among
  | known _ _ induction =>
      exact (induction among).imp_right fun ⟨spot, member, reaches⟩ =>
        ⟨spot, .tail _ member, reaches⟩
  | @enter room known inner after spot asked spots reading _ holds _ _ inside later =>
      rcases later among with among | ⟨other, member, reaches⟩
      · have here : below = spot ∨ below ∈ inner := by
          cases reading with
          | none => exact among
          | some => exact .inr among
        rcases here with rfl | among
        · exact .inr ⟨_, List.mem_cons_self, .refl⟩
        · refine (inside among).imp_right fun ⟨other, member, reaches⟩ => ?_
          exact ⟨spot, List.mem_cons_self, .head ⟨_, _, holds, member⟩ reaches⟩
      · exact .inr ⟨other, .tail _ member, reaches⟩

/-- A run knows in the end what it knew before and all that reads nothing below what it asked
for. -/
structure Completes (known : Set Spot) (spots : List Spot) (after : Set Spot) : Prop where
  keeps : known ⊆ after
  closed : Closed after
  knows : ∀ spot ∈ spots, ∀ below, spot.Reaches below → below.Fails → below ∈ after

private theorem Spot.Holds.knows_learn (holds : spot.Holds asked reading)
    (complete : Completes known asked after) (reaches : spot.Reaches below) (fails : below.Fails) :
    below ∈ spot.learn reading after := by
  rcases reaches.cases_head with rfl | ⟨other, asks, reaches⟩
  · obtain ⟨_, holds'⟩ := fails
    obtain ⟨-, rfl⟩ := holds.unique holds'
    exact Set.mem_insert _ _
  · exact subset_learn _ _ _ (complete.knows other (holds.mem_of_asks asks) below reaches fails)

theorem Explores.complete (explores : Explores room known spots after) (closed : Closed known) :
    Completes known spots after := by
  induction explores with
  | nil => exact ⟨subset_rfl, closed, by simp⟩
  | known among _ induction =>
      have rest := induction closed
      refine ⟨rest.keeps, rest.closed, fun other member below reaches fails => ?_⟩
      rcases List.mem_cons.mp member with rfl | member
      · exact rest.keeps (closed _ among below reaches fails)
      · exact rest.knows other member below reaches fails
  | @enter room known inner after spot asked spots reading _ holds _ _ inside later =>
      have first := inside closed
      have closedLearn : Closed (spot.learn reading inner) := by
        intro other among below reaches fails
        cases reading with
        | some => exact first.closed other among below reaches fails
        | none =>
            rcases among with rfl | among
            · exact holds.knows_learn first reaches fails
            · exact .inr (first.closed other among below reaches fails)
      have rest := later closedLearn
      refine ⟨(first.keeps.trans (subset_learn _ _ _)).trans rest.keeps, rest.closed,
        fun other member below reaches fails => ?_⟩
      rcases List.mem_cons.mp member with rfl | member
      · exact rest.keeps (holds.knows_learn first reaches fails)
      · exact rest.knows other member below reaches fails

theorem explores_append {more : List Spot} : Explores room known (spots ++ more) after ↔
    ∃ middle, Explores room known spots middle ∧ Explores room middle more after := by
  induction spots generalizing known with
  | nil =>
      refine ⟨fun explores => ⟨known, .nil, explores⟩, ?_⟩
      rintro ⟨_, ⟨⟩, explores⟩
      exact explores
  | cons spot spots induction =>
      rw [List.cons_append, explores_cons]
      constructor
      · rintro ⟨first, explores, later⟩
        obtain ⟨middle, later, last⟩ := induction.mp later
        exact ⟨middle, explores_cons.mpr ⟨first, explores, later⟩, last⟩
      · rintro ⟨middle, explores, last⟩
        obtain ⟨first, explores, later⟩ := explores_cons.mp explores
        exact ⟨first, explores, induction.mpr ⟨middle, later, last⟩⟩

/-! ### Images -/

/-- A run can get past a spot, whatever it knows. -/
def Explorable (room : ℕ) (spot : Spot) : Prop :=
  ∀ known, Closed known → Refuted known → ∃ after, Explores room known [spot] after

/-- A map of spots that keeps what is asked for below spots of a class. Those that a run with some
room may know to read nothing are tracked, or can be entered. -/
structure Transfers (map : Spot → Spot) (kept tracked : Spot → Prop) (fits : ℕ → Spot → Prop) :
    Prop where
  kept_of_asks : ∀ {spot other}, kept spot → spot.Asks other → kept other
  holds : ∀ {spot asked reading}, kept spot → spot.Holds asked reading →
    ∃ reading', (map spot).Holds (asked.map map) reading' ∧ reading'.isSome = reading.isSome
  fits_of_asks : ∀ {room spot other}, fits (room + 1) spot → spot.Asks other → fits room other
  enters : ∀ {room spot}, fits room spot → kept spot → spot.Fails →
    tracked spot ∨ Explorable room (map spot)

/-- The images of the tracked spots of a set are known. -/
def Tracks (map : Spot → Spot) (tracked : Spot → Prop) (known others : Set Spot) : Prop :=
  ∀ spot ∈ known, tracked spot → map spot ∈ others

namespace Transfers

variable {map : Spot → Spot} {kept tracked : Spot → Prop} {fits : ℕ → Spot → Prop}
  (transfers : Transfers map kept tracked fits)

include transfers

private theorem reaches (keeps : kept spot) (reaches : spot.Reaches below) :
    kept below ∧ (map spot).Reaches (map below) := by
  induction reaches with
  | refl => exact ⟨keeps, .refl⟩
  | tail _ asks induction =>
      obtain ⟨keeps, reaches⟩ := induction
      refine ⟨transfers.kept_of_asks keeps asks, reaches.tail ?_⟩
      obtain ⟨asked, reading, holds, member⟩ := asks
      obtain ⟨reading', holds', -⟩ := transfers.holds keeps holds
      exact ⟨_, _, holds', List.mem_map_of_mem member⟩

private theorem fails (keeps : kept spot) (fails : spot.Fails) : (map spot).Fails := by
  obtain ⟨asked, holds⟩ := fails
  obtain ⟨reading', holds', same⟩ := transfers.holds keeps holds
  obtain rfl : reading' = none := by simpa using same
  exact ⟨_, holds'⟩

/-- What a run finds below an image is known where the image is. -/
theorem tracks_of_mem {inner : Set Spot} (closed : Closed others) (keeps : kept spot)
    (holds : spot.Holds asked reading) (among : map spot ∈ others)
    (explores : Explores room known asked inner) (refuted : Refuted known)
    (tracks : Tracks map tracked known others) :
    Tracks map tracked (spot.learn reading inner) others := by
  have inside : Tracks map tracked inner others := by
    intro below member track
    rcases explores.found member with member' | ⟨other, asks, reaches⟩
    · exact tracks below member' track
    · have path : spot.Reaches below := .head ⟨_, _, holds, asks⟩ reaches
      obtain ⟨keepsBelow, path⟩ := transfers.reaches keeps path
      exact closed _ among _ path
        (transfers.fails keepsBelow (explores.refuted refuted below member))
  cases reading with
  | some => exact inside
  | none =>
      rintro below (rfl | member) track
      · exact among
      · exact inside below member track

/-- The images of spots are explored like the spots. -/
theorem explores (explores : Explores room known spots after)
    (keeps : ∀ spot ∈ spots, kept spot) (fit : ∀ spot ∈ spots, fits room spot)
    (refuted : Refuted known) (closed : Closed others) (refuted' : Refuted others)
    (tracks : Tracks map tracked known others) :
    ∃ after', Explores room others (spots.map map) after' ∧ Tracks map tracked after after' := by
  induction explores generalizing others with
  | nil => exact ⟨others, .nil, tracks⟩
  | @known room known after spot spots among later induction =>
      rw [List.forall_mem_cons] at keeps fit
      rcases transfers.enters fit.1 keeps.1 (refuted spot among) with track | explorable
      · obtain ⟨after', explores', tracks'⟩ :=
          induction keeps.2 fit.2 refuted closed refuted' tracks
        exact ⟨after', .known (tracks spot among track) explores', tracks'⟩
      · obtain ⟨middle, first⟩ := explorable others closed refuted'
        have complete := first.complete closed
        obtain ⟨after', explores', tracks'⟩ := induction keeps.2 fit.2 refuted complete.closed
          (first.refuted refuted') fun spot among track => complete.keeps (tracks spot among track)
        exact ⟨after', explores_cons.mpr ⟨middle, first, explores'⟩, tracks'⟩
  | @enter room known inner after spot asked spots reading new holds inside later below behind =>
      rw [List.forall_mem_cons] at keeps fit
      have refutedLearn := refuted_learn (inside.refuted refuted) holds
      by_cases among : map spot ∈ others
      · obtain ⟨after', explores', tracks'⟩ := behind keeps.2 fit.2 refutedLearn closed refuted'
          (transfers.tracks_of_mem closed keeps.1 holds among inside refuted tracks)
        exact ⟨after', .known among explores', tracks'⟩
      · obtain ⟨reading', holds', same⟩ := transfers.holds keeps.1 holds
        obtain ⟨inner', first, tracks'⟩ := below
          (fun other member => transfers.kept_of_asks keeps.1 ⟨_, _, holds, member⟩)
          (fun other member => transfers.fits_of_asks fit.1 ⟨_, _, holds, member⟩)
          refuted closed refuted' tracks
        have single : Explores (room + 1) others [map spot] ((map spot).learn reading' inner') :=
          .enter among holds' first .nil
        have tracksLearn : Tracks map tracked (spot.learn reading inner)
            ((map spot).learn reading' inner') := by
          cases reading with
          | some => exact fun spot member track => subset_learn _ _ _ (tracks' spot member track)
          | none =>
              obtain rfl : reading' = none := by simpa using same
              rintro below (rfl | member) track
              · exact Set.mem_insert _ _
              · exact .inr (tracks' below member track)
        obtain ⟨after', explores', tracks''⟩ := behind keeps.2 fit.2 refutedLearn
          (single.complete closed).closed (single.refuted refuted') tracksLearn
        exact ⟨after', .enter among holds' first explores', tracks''⟩

end Transfers

/-- Every run gets past what a run that knows nothing gets past. -/
theorem Explores.explorable (explores : Explores room ∅ [spot] after) : Explorable room spot := by
  intro known closed refuted
  have transfers : Transfers id (fun _ => True) (fun _ => True) fun _ _ => True :=
    { kept_of_asks := fun _ _ => trivial
      holds := fun _ holds => ⟨_, by rwa [List.map_id, id], rfl⟩
      fits_of_asks := fun _ _ => trivial
      enters := fun _ _ _ => .inl trivial }
  obtain ⟨after', explores', -⟩ := transfers.explores explores (by simp) (by simp) refuted_empty
    closed refuted fun _ among => among.elim
  exact ⟨after', explores'⟩

/-! ### Mirrors -/

/-- Nothing tracked that reads nothing lies below a spot. -/
def Quiet (tracked : Spot → Prop) (spot : Spot) : Prop :=
  ∀ below, spot.Reaches below → below.Fails → ¬ tracked below

/-- A list of spots takes the place of another one. Most of it are images. There may be more that a
run gets past anyway, there may be less where nothing tracked would be found, and a spot may have
another one in its place that asks for the like. -/
inductive Mirrors (map : Spot → Spot) (kept tracked : Spot → Prop) (fits : ℕ → Spot → Prop) :
    ℕ → List Spot → List Spot → Prop where
  | nil {room : ℕ} : Mirrors map kept tracked fits room [] []
  | image {room : ℕ} {spot : Spot} {asked others : List Spot} (keeps : kept spot)
      (fit : fits room spot) (rest : Mirrors map kept tracked fits room asked others) :
      Mirrors map kept tracked fits room (spot :: asked) (map spot :: others)
  | more {room : ℕ} {spot : Spot} {asked others : List Spot} (explorable : Explorable room spot)
      (rest : Mirrors map kept tracked fits room asked others) :
      Mirrors map kept tracked fits room asked (spot :: others)
  | less {room : ℕ} {spot : Spot} {asked others : List Spot}
      (quiet : Quiet tracked spot)
      (rest : Mirrors map kept tracked fits room asked others) :
      Mirrors map kept tracked fits room (spot :: asked) others
  | instead {room : ℕ} {spot other : Spot} {inner inner' asked others : List Spot}
      {reading reading' : Reading} (holds : spot.Holds inner reading)
      (holds' : other.Holds inner' reading') (alike : reading'.isSome = reading.isSome)
      (misses : reading = none → ¬ tracked spot ∧ Explorable (room + 1) other)
      (inside : Mirrors map kept tracked fits room inner inner')
      (rest : Mirrors map kept tracked fits (room + 1) asked others) :
      Mirrors map kept tracked fits (room + 1) (spot :: asked) (other :: others)

namespace Mirrors

variable {map : Spot → Spot} {kept tracked : Spot → Prop} {fits : ℕ → Spot → Prop}
  {mirrored more more' : List Spot}

theorem append (mirrors : Mirrors map kept tracked fits room asked mirrored)
    (behind : Mirrors map kept tracked fits room more more') :
    Mirrors map kept tracked fits room (asked ++ more) (mirrored ++ more') := by
  induction mirrors with
  | nil => exact behind
  | image keeps fit _ induction => exact .image keeps fit (induction behind)
  | more explorable _ induction => exact .more explorable (induction behind)
  | less quiet _ induction => exact .less quiet (induction behind)
  | instead holds holds' alike misses inside _ _ induction =>
      exact .instead holds holds' alike misses inside (induction behind)

/-- Nothing needs to take the place of spots without anything tracked below them. -/
theorem of_quiet (quiet : ∀ spot ∈ asked, Quiet tracked spot)
    (explorable : ∀ spot ∈ mirrored, Explorable room spot) :
    Mirrors map kept tracked fits room asked mirrored := by
  induction asked with
  | cons spot asked induction =>
      rw [List.forall_mem_cons] at quiet
      exact .less quiet.1 (induction quiet.2)
  | nil =>
      induction mirrored with
      | nil => exact .nil
      | cons spot mirrored induction =>
          rw [List.forall_mem_cons] at explorable
          exact .more explorable.1 (induction explorable.2)

variable (transfers : Transfers map kept tracked fits)

include transfers

/-- The images of the tracked spots that read nothing below a list lie below its mirror. -/
theorem reaches (mirrors : Mirrors map kept tracked fits room asked mirrored)
    (member : spot ∈ asked) (reaches : spot.Reaches below) (fails : below.Fails)
    (track : tracked below) :
    (∃ other ∈ mirrored, other.Reaches (map below)) ∧ (map below).Fails := by
  induction mirrors generalizing spot with
  | nil => cases member
  | image keeps _ _ induction =>
      rcases List.mem_cons.mp member with rfl | member
      · obtain ⟨keepsBelow, reaches⟩ := transfers.reaches keeps reaches
        exact ⟨⟨_, List.mem_cons_self, reaches⟩, transfers.fails keepsBelow fails⟩
      · exact (induction member reaches).imp_left fun ⟨other, among, reaches⟩ =>
          ⟨other, .tail _ among, reaches⟩
  | more _ _ induction =>
      exact (induction member reaches).imp_left fun ⟨other, among, reaches⟩ =>
        ⟨other, .tail _ among, reaches⟩
  | less quiet _ induction =>
      rcases List.mem_cons.mp member with rfl | member
      · exact absurd track (quiet below reaches fails)
      · exact induction member reaches
  | instead holds holds' _ misses _ _ inductionInside inductionRest =>
      rcases List.mem_cons.mp member with rfl | member
      · rcases reaches.cases_head with rfl | ⟨next, asks, reaches⟩
        · obtain ⟨_, holds''⟩ := fails
          obtain ⟨-, rfl⟩ := holds.unique holds''
          exact absurd track (misses rfl).1
        · obtain ⟨⟨other, among, reaches⟩, fails⟩ :=
            inductionInside (holds.mem_of_asks asks) reaches
          exact ⟨⟨_, List.mem_cons_self, .head ⟨_, _, holds', among⟩ reaches⟩, fails⟩
      · exact (inductionRest member reaches).imp_left fun ⟨other, among, reaches⟩ =>
          ⟨other, .tail _ among, reaches⟩

/-- What a run finds is known where it lies below something known. -/
theorem tracks_of_mem {inner : Set Spot} (closed : Closed others) (among : other ∈ others)
    (asks : ∀ next ∈ mirrored, other.Asks next)
    (mirrors : Mirrors map kept tracked fits room asked mirrored)
    (explores : Explores room known asked inner) (refuted : Refuted known)
    (tracks : Tracks map tracked known others) : Tracks map tracked inner others := by
  intro below member track
  rcases explores.found member with member' | ⟨spot, asked, reaches⟩
  · exact tracks below member' track
  · obtain ⟨⟨next, among', path⟩, fails⟩ :=
      mirrors.reaches transfers asked reaches (explores.refuted refuted below member) track
    exact closed other among _ (.head (asks next among') path) fails

/-- A mirror is explored like what it mirrors. -/
theorem explores (mirrors : Mirrors map kept tracked fits room asked mirrored)
    (explores : Explores room known asked after) (refuted : Refuted known)
    (closed : Closed others) (refuted' : Refuted others)
    (tracks : Tracks map tracked known others) :
    ∃ after', Explores room others mirrored after' ∧ Tracks map tracked after after' := by
  induction mirrors generalizing known after others with
  | nil =>
      cases explores
      exact ⟨others, .nil, tracks⟩
  | image keeps fit _ induction =>
      obtain ⟨middle, first, later⟩ := explores_cons.mp explores
      obtain ⟨middle', first', tracks'⟩ := transfers.explores first (by simpa using keeps)
        (by simpa using fit) refuted closed refuted' tracks
      obtain ⟨after', later', tracks''⟩ := induction later (first.refuted refuted)
        (first'.complete closed).closed (first'.refuted refuted') tracks'
      exact ⟨after', explores_cons.mpr ⟨middle', first', later'⟩, tracks''⟩
  | more explorable _ induction =>
      obtain ⟨middle, first⟩ := explorable others closed refuted'
      have complete := first.complete closed
      obtain ⟨after', later, tracks'⟩ := induction explores refuted complete.closed
        (first.refuted refuted') fun spot among track => complete.keeps (tracks spot among track)
      exact ⟨after', explores_cons.mpr ⟨middle, first, later⟩, tracks'⟩
  | less quiet _ induction =>
      obtain ⟨middle, first, later⟩ := explores_cons.mp explores
      refine induction later (first.refuted refuted) closed refuted' fun below member track => ?_
      rcases first.found member with member' | ⟨spot, asked, reaches⟩
      · exact tracks below member' track
      · obtain rfl := List.mem_singleton.mp asked
        exact absurd track (quiet below reaches (first.refuted refuted below member))
  | @instead room spot other inner inner' _ _ reading reading' holds holds' alike misses inside _
      inductionInside inductionRest =>
      obtain ⟨middle, first, later⟩ := explores_cons.mp explores
      -- Whether the spot is known or entered, its mirror leaves as much known.
      have single : ∃ middle', Explores (room + 1) others [other] middle' ∧
          Tracks map tracked middle middle' := by
        cases first with
        | known among none =>
            cases none
            obtain ⟨_, holds''⟩ := refuted spot among
            obtain ⟨-, rfl⟩ := holds.unique holds''
            obtain ⟨middle', first'⟩ := (misses rfl).2 others closed refuted'
            exact ⟨middle', first', fun below member track =>
              (first'.complete closed).keeps (tracks below member track)⟩
        | enter _ holds'' below none =>
            cases none
            obtain ⟨rfl, rfl⟩ := holds.unique holds''
            have learns : ∀ {inner spots : Set Spot}, Tracks map tracked inner spots →
                Tracks map tracked (spot.learn reading inner) spots := by
              intro inner spots tracks
              cases reading with
              | some => exact tracks
              | none =>
                  rintro below (rfl | member) track
                  · exact absurd track (misses rfl).1
                  · exact tracks below member track
            by_cases among : other ∈ others
            · exact ⟨others, .known among .nil, learns (inside.tracks_of_mem transfers closed among
                (fun next member => ⟨_, _, holds', member⟩) below refuted tracks)⟩
            · obtain ⟨below', explores', tracks'⟩ :=
                inductionInside below refuted closed refuted' tracks
              exact ⟨_, .enter among holds' explores' .nil, fun spot member track =>
                subset_learn _ _ _ (learns tracks' spot member track)⟩
      obtain ⟨middle', first', tracks'⟩ := single
      obtain ⟨after', later', tracks''⟩ := inductionRest later (first.refuted refuted)
        (first'.complete closed).closed (first'.refuted refuted') tracks'
      exact ⟨after', explores_cons.mpr ⟨middle', first', later'⟩, tracks''⟩

end Mirrors

/-! ### Expressions -/

/-- An expression asks for what takes the place of some spots, and reads something. -/
def Replays (map : Spot → Spot) (kept tracked : Spot → Prop) (fits : ℕ → Spot → Prop) (room : ℕ)
    (node : Node) (asked : List Spot) (ahead : List Char) (reading : Reading) : Prop :=
  ∃ others, Traces node ahead others reading ∧ Mirrors map kept tracked fits room asked others

namespace Replays

variable {map : Spot → Spot} {kept tracked : Spot → Prop} {fits : ℕ → Spot → Prop}
  {name text : String} {node child body : Node} {nodes : List Node}
  {before behind inner : List Spot} {ahead middle last chars rest : List Char}
  {parts more : List Part}

theorem nil : Replays map kept tracked fits room (.sequence []) [] ahead (some ([], ahead)) :=
  ⟨[], .nil, .nil⟩

theorem cons (head : Replays map kept tracked fits room node before ahead (some (parts, middle)))
    (later : Replays map kept tracked fits room (.sequence nodes) behind middle reading) :
    Replays map kept tracked fits room (.sequence (node :: nodes)) (before ++ behind) ahead
      (Reading.prepend parts reading) := by
  obtain ⟨first, traces, mirrors⟩ := head
  obtain ⟨second, traces', mirrors'⟩ := later
  exact ⟨first ++ second,
    traces_sequence_cons.mpr (.inr ⟨_, _, _, _, _, traces, traces', rfl, rfl⟩),
    mirrors.append mirrors'⟩

theorem broken (head : Replays map kept tracked fits room node before ahead (some (parts, middle)))
    (later : Replays map kept tracked fits room (.sequence nodes) behind middle none) :
    Replays map kept tracked fits room (.sequence (node :: nodes)) (before ++ behind) ahead none :=
  head.cons later

theorem stop (head : Replays map kept tracked fits room node asked ahead none) :
    Replays map kept tracked fits room (.sequence (node :: nodes)) asked ahead none := by
  obtain ⟨others, traces, mirrors⟩ := head
  exact ⟨others, .stop traces, mirrors⟩

theorem literal : Replays map kept tracked fits room (.literal text) [] (text.toList ++ rest)
    (some ([], rest)) :=
  ⟨[], .literal rfl, .nil⟩

theorem otherLiteral (differs : ¬ text.toList <+: ahead) :
    Replays map kept tracked fits room (.literal text) [] ahead none :=
  ⟨[], .otherLiteral differs, .nil⟩

theorem notAhead (misses : Replays map kept tracked fits room child asked ahead none) :
    Replays map kept tracked fits room (.notAhead child) asked ahead (some ([], ahead)) := by
  obtain ⟨others, traces, mirrors⟩ := misses
  exact ⟨others, .notAhead traces, mirrors⟩

theorem absent (misses : Replays map kept tracked fits room child asked ahead none) :
    Replays map kept tracked fits room (.zeroOrMore child) asked ahead (some ([], ahead)) := by
  obtain ⟨others, traces, mirrors⟩ := misses
  exact ⟨others, .exhausted traces, mirrors⟩

theorem again (head : Replays map kept tracked fits room child before ahead (some (parts, middle)))
    (moves : middle ≠ ahead)
    (later : Replays map kept tracked fits room (.zeroOrMore child) behind middle
      (some (more, last))) :
    Replays map kept tracked fits room (.zeroOrMore child) (before ++ behind) ahead
      (some (parts ++ more, last)) := by
  obtain ⟨first, traces, mirrors⟩ := head
  obtain ⟨second, traces', mirrors'⟩ := later
  exact ⟨first ++ second, .again traces moves traces', mirrors.append mirrors'⟩

/-- A call asks for its production in the place of one that reads something, too. -/
theorem call_matched {read : List Part × List Char} (holds : spot.Holds inner (some read))
    (member : (name, body) ∈ rules) (split : ahead = chars ++ rest)
    (replays : Replays map kept tracked fits room body inner ahead (some (parts, rest))) :
    Replays map kept tracked fits (room + 1) (.call name) [spot] ahead
      (some ([⟨name, chars, parts⟩], rest)) := by
  obtain ⟨others, traces, mirrors⟩ := replays
  exact ⟨[⟨name, ahead⟩], .matched member split traces,
    .instead holds ⟨body, member, traces⟩ rfl nofun mirrors .nil⟩

theorem call_missed (holds : spot.Holds inner none) (member : (name, body) ∈ rules)
    (untracked : ¬ tracked spot) (explorable : Explorable (room + 1) ⟨name, ahead⟩)
    (replays : Replays map kept tracked fits room body inner ahead none) :
    Replays map kept tracked fits (room + 1) (.call name) [spot] ahead none := by
  obtain ⟨others, traces, mirrors⟩ := replays
  exact ⟨[⟨name, ahead⟩], .missed member traces,
    .instead holds ⟨body, member, traces⟩ rfl (fun _ => ⟨untracked, explorable⟩) mirrors .nil⟩

end Replays

/-! ### Productions that nest little -/

theorem Explores.mono {more : ℕ} (explores : Explores room known spots after) (le : room ≤ more) :
    Explores more known spots after := by
  induction explores generalizing more with
  | nil => exact .nil
  | known among _ induction => exact .known among (induction le)
  | enter new holds _ _ inside later =>
      obtain ⟨more, rfl⟩ := Nat.exists_eq_succ_of_ne_zero (Nat.ne_zero_of_lt le)
      exact .enter new holds (inside (Nat.le_of_succ_le_succ le)) (later le)

theorem Explorable.mono {more : ℕ} (explorable : Explorable room spot) (le : room ≤ more) :
    Explorable more spot := fun known closed refuted =>
  (explorable known closed refuted).imp fun _ explores => explores.mono le

/-- A run gets past a call that can be derived with as much nesting as there is room for. -/
theorem explorable_of_derives {depth : ℕ} {production name : String} {cursor : Cursor}
    {outcome : Outcome} (derives : Derives grammar depth production
      (.node (.call name)) .empty cursor outcome) (ends : ∀ error, outcome ≠ .failed error) :
    Explorable depth ⟨name, cursor.rest⟩ := by
  obtain ⟨asked, reading, traces, shown⟩ := traces_of_derives derives rfl ends rfl
  obtain ⟨rfl, -⟩ := traces_call.mp traces
  have goes := callsGo_invoke cursor.whole 0 production depth name cursor reading ∅ .fresh rfl
    traces refuted_empty (remembers_fresh _)
  have reply : ((remembering 0).invoke depth production name [] .empty cursor .fresh).1 = outcome :=
    derives.reproduces (remembering 0) depth le_rfl .fresh Memory.sound_fresh
  rcases goes with ⟨after, explores, -, -⟩ | ⟨-, exceeded⟩
  · exact explores.explorable
  · exact absurd (reply.symm.trans exceeded) (ends _)

theorem Refuses.explorable {depth : ℕ} {name : String} {ahead : List Char}
    (refuses : Refuses depth (.call name) ahead) : Explorable depth ⟨name, ahead⟩ :=
  explorable_of_derives (refuses outside (Cursor.start ahead) rfl) nofun

/-- The productions without recursion, those first that the later ones ask for. -/
def ranks : List (List String) :=
  [ ["alpha", "digit", "name-joiner", "sum-operator", "any-char", "s-space", "b-break",
      "line-comment", "block-comment", "single-quoted-char", "double-quoted-char"],
    ["alnum", "hex-digit", "comment", "quoted-string", "quoted-char", "decimal",
      "lookahead-positive", "lookahead-negative", "lookbehind-positive"],
    ["name-char", "hex-char", "production-name", "s-ignorable", "param-variable"],
    ["special", "range-bound", "context-value", "chomping-value", "in-flow", "param-term",
      "section-number"],
    ["code-point-range", "param-sum"],
    ["parameter", "quantifier"],
    ["parameter-list"],
    ["reference", "production-head"] ]

/-- How deeply the productions nest that a production asks for, if it is one without recursion. -/
def rank (name : String) : ℕ := ranks.findIdx (name ∈ ·)

/-- Whether a production asks for none with recursion. -/
def isFlat (name : String) : Bool := rank name < ranks.length

theorem rank_lt_of_mem {name : String} {body : Node} (member : (name, body) ∈ rules)
    (flat : isFlat name = true) {called : String} (among : called ∈ body.references) :
    rank called < rank name := by
  have holds := check_of_mem (fun name body =>
    !isFlat name || body.references.all (rank · < rank name)) (by decide +kernel) member
  simp only [flat, Bool.not_true, Bool.false_or] at holds
  exact of_decide_eq_true (List.all_eq_true.mp holds called among)

theorem Traces.mem_references {node : Node} {ahead : List Char}
    (traces : Traces node ahead asked reading) (among : spot ∈ asked) :
    spot.name ∈ node.references := by
  induction traces with
  | matched | missed =>
      obtain rfl := List.mem_singleton.mp among
      exact List.mem_singleton_self _
  | cons _ _ inductionHead inductionTail | broken _ _ inductionHead inductionTail
  | next _ _ inductionHead inductionTail =>
      rcases List.mem_append.mp among with before | behind
      · exact List.mem_append_left _ (inductionHead before)
      · exact List.mem_append_right _ (inductionTail behind)
  | again _ _ _ inductionHead inductionTail =>
      rcases List.mem_append.mp among with before | behind
      · exact inductionHead before
      · exact inductionTail behind
  | stop _ induction | chosen _ induction => exact List.mem_append_left _ (induction among)
  | present _ induction | absent _ induction | exhausted _ induction | idle _ induction
  | notAhead _ induction | isAhead _ induction => exact induction among
  | _ => cases among

/-- What an expression asks for is there. -/
theorem Traces.exists_holds {node : Node} {ahead : List Char}
    (traces : Traces node ahead asked reading) (among : spot ∈ asked) :
    ∃ inner read, spot.Holds inner read := by
  induction traces with
  | matched member _ inside | missed member inside =>
      obtain rfl := List.mem_singleton.mp among
      exact ⟨_, _, _, member, inside⟩
  | cons _ _ inductionHead inductionTail | broken _ _ inductionHead inductionTail
  | next _ _ inductionHead inductionTail | again _ _ _ inductionHead inductionTail =>
      exact (List.mem_append.mp among).elim inductionHead inductionTail
  | stop _ induction | chosen _ induction | present _ induction | absent _ induction
  | exhausted _ induction | idle _ induction | notAhead _ induction | isAhead _ induction =>
      exact induction among
  | _ => cases among

theorem exists_explores (explorable : ∀ spot ∈ spots, Explorable room spot) (closed : Closed known)
    (refuted : Refuted known) : ∃ after, Explores room known spots after := by
  induction spots generalizing known with
  | nil => exact ⟨known, .nil⟩
  | cons spot spots induction =>
      rw [List.forall_mem_cons] at explorable
      obtain ⟨middle, first⟩ := explorable.1 known closed refuted
      obtain ⟨after, later⟩ :=
        induction explorable.2 (first.complete closed).closed (first.refuted refuted)
      exact ⟨after, explores_cons.mpr ⟨middle, first, later⟩⟩

theorem Explorable.of_holds (holds : spot.Holds asked reading)
    (inside : ∀ other ∈ asked, Explorable room other) : Explorable (room + 1) spot := by
  intro known closed refuted
  by_cases among : spot ∈ known
  · exact ⟨known, .known among .nil⟩
  · obtain ⟨inner, explores⟩ := exists_explores inside closed refuted
    exact ⟨_, .enter among holds explores .nil⟩

/-- A run gets past a production without recursion with room for its rank. -/
theorem explorable_of_flat (holds : spot.Holds asked reading) (flat : isFlat spot.name = true) :
    Explorable (rank spot.name + 1) spot := by
  induction nested : rank spot.name using Nat.strongRecOn generalizing spot asked reading with
  | _ _ induction =>
  refine .of_holds holds fun other among => ?_
  obtain ⟨body, member, traces⟩ := holds
  have lower := rank_lt_of_mem member flat (traces.mem_references among)
  obtain ⟨inner, read, holds⟩ := traces.exists_holds among
  have below : isFlat other.name = true := by
    simp only [isFlat, decide_eq_true_eq] at flat ⊢
    omega
  exact (induction _ (nested ▸ lower) holds below rfl).mono (nested ▸ lower)

end Dialect

end Bnf

end ParametricGrammar
