import ParametricGrammar.Proofs.Dialect.PrintedLiterals
import ParametricGrammar.Proofs.Dialect.TextErrors
/-!
# Pieces of literals

The pieces of a text can be cut out of it in one pass over its byte offsets, which keeps where the
open run starts and whether it holds a quote of either kind. A slice of the text is taken whenever a
run is closed; both of its ends are character boundaries, whatever characters the run is made of.
-/

namespace ParametricGrammar

namespace Bnf

/-- What a pass over a text keeps: the pieces so far, the offset at which the open run starts, and
whether the open run holds a single and a double quote. -/
structure Scan where
  pieces : List Piece := []
  start : ℕ := 0
  single : Bool := false
  double : Bool := false

namespace Scan

/-- The pieces after the open run is closed at an offset; an empty run is none. Undefined if the run
would be sliced off a character boundary. -/
def close? (text : List Char) (scan : Scan) (offset : ℕ) : Option (List Piece) :=
  if scan.start < offset then
    (slice? text scan.start offset).map fun run => scan.pieces ++ [.quoted run]
  else some scan.pieces

/-- Goes on over the character at an offset. A line break closes the open run and is a piece of its
own, and a quote closes the open run if that holds the other quote. -/
def step? (text : List Char) (scan : Scan) (offset : ℕ) (char : Char) : Option Scan :=
  if Piece.breaksLine char then
    (scan.close? text offset).map fun pieces =>
      { pieces := pieces ++ [.lineBreak char], start := offset + char.utf8Size }
  else if char = '\'' && scan.double || char = '"' && scan.single then
    (scan.close? text offset).map fun pieces =>
      { pieces, start := offset, single := char = '\'', double := char = '"' }
  else
    some { scan with
      single := scan.single || char = '\''
      double := scan.double || char = '"' }

/-- The pieces after the characters from an offset on, where the last run is closed at the end. -/
def run? (text : List Char) (scan : Scan) (offset : ℕ) : List Char → Option (List Piece)
  | [] => scan.close? text (byteLength text)
  | char :: rest =>
      (scan.step? text offset char).bind fun scan =>
        scan.run? text (offset + char.utf8Size) rest

/-- The open run of a pass stands behind given characters, and its quotes are told. -/
structure Keeps (scan : Scan) (front run : List Char) : Prop where
  start_eq : scan.start = byteLength front
  single_eq : scan.single = run.contains '\''
  double_eq : scan.double = run.contains '"'

variable {scan : Scan} {front run rest : List Char}

private theorem keeps_new : Keeps {} [] [] := ⟨rfl, rfl, rfl⟩

/-- A run is closed between its first and behind its last character. -/
theorem Keeps.close?_eq (keeps : scan.Keeps front run) (rest : List Char) :
    scan.close? (front ++ run ++ rest) (byteLength (front ++ run)) =
      some (scan.pieces ++ Piece.ofRun run) := by
  rw [close?, keeps.start_eq, byteLength_append]
  cases run with
  | nil => simp [Piece.ofRun]
  | cons char run =>
      have wide : byteLength front < byteLength front + byteLength (char :: run) := by
        have := char.utf8Size_pos
        rw [byteLength_cons]
        omega
      have slices : slice? (front ++ (char :: run) ++ rest) (byteLength front)
          (byteLength front + byteLength (char :: run)) = some (char :: run) :=
        slice?_eq_some_iff.mpr ⟨front, rest, by simp, rfl, byteLength_append _ _⟩
      rw [if_pos wide, slices]
      rfl

private theorem Keeps.endsRun_eq (keeps : scan.Keeps front run) (char : Char) :
    (char = '\'' && scan.double || char = '"' && scan.single) = Piece.endsRun run char := by
  rw [keeps.single_eq, keeps.double_eq, Piece.endsRun]
  by_cases single : char = '\''
  · simp [single, Piece.otherQuote?]
  · by_cases double : char = '"'
    · simp [double, Piece.otherQuote?]
    · simp [single, double, Piece.otherQuote?]

/-- A step over a character keeps track of the open run, and what is still to be split gives the
same pieces. -/
theorem Keeps.step (keeps : scan.Keeps front run) (char : Char) (rest : List Char) :
    ∃ next front' run',
      scan.step? (front ++ run ++ char :: rest) (byteLength (front ++ run)) char = some next ∧
        next.Keeps front' run' ∧ front' ++ run' = front ++ run ++ [char] ∧
        next.pieces ++ Piece.split run' rest = scan.pieces ++ Piece.split run (char :: rest) := by
  rw [step?, keeps.close?_eq, keeps.endsRun_eq, Piece.split]
  split
  · -- Nothing is open behind a line break, whatever quotes the run before it held.
    refine ⟨_, front ++ run ++ [char], [], rfl, ⟨?_, rfl, rfl⟩, by simp, by simp⟩
    simp [byteLength_append, Nat.add_assoc]
  · split
    · -- The quote that the run could not take in is the first character of the next one.
      refine ⟨_, front ++ run, [char], rfl, ⟨rfl, ?_, ?_⟩, rfl, by simp⟩
      · simp [eq_comm]
      · simp [eq_comm]
    · refine ⟨_, front, run ++ [char], rfl, ⟨keeps.start_eq, ?_, ?_⟩, by simp, rfl⟩
      · simp [keeps.single_eq, eq_comm]
      · simp [keeps.double_eq, eq_comm]

/-- A pass over the rest of a text is defined, and splits the rest behind the open run. -/
theorem Keeps.run?_eq (keeps : scan.Keeps front run) (rest : List Char) :
    scan.run? (front ++ run ++ rest) (byteLength (front ++ run)) rest =
      some (scan.pieces ++ Piece.split run rest) := by
  induction rest generalizing scan front run with
  | nil =>
      rw [run?, Piece.split, ← keeps.close?_eq []]
      simp
  | cons char rest induction =>
      obtain ⟨next, front', run', steps, keeps', same, pieces⟩ := keeps.step char rest
      have text_eq : front ++ run ++ char :: rest = front' ++ run' ++ rest := by simp [same]
      have offset_eq : byteLength (front ++ run) + char.utf8Size = byteLength (front' ++ run') := by
        simp [same, byteLength_append, Nat.add_assoc]
      rw [run?, steps, Option.bind_some, text_eq, offset_eq, induction keeps', pieces]

end Scan

namespace Piece

/-- The pieces of a text as one pass over its byte offsets cuts them out. -/
def cut? (text : List Char) : Option (List Piece) :=
  Scan.run? text {} 0 text

/-- All slices that the pass takes are on character boundaries, and they are the pieces. -/
theorem cut?_eq (text : String) : cut? text.toList = some (ofText text) :=
  Scan.keeps_new.run?_eq text.toList

private theorem Quotable.notMem {run : List Char} (quotable : Quotable run) :
    ('\n' ∉ run ∧ '\r' ∉ run) ∧ ('\'' ∉ run ∨ '"' ∉ run) := by
  obtain ⟨quote, known, all⟩ := quotable
  have absent : ∀ char, Dialect.fits quote char = false → char ∉ run := by
    intro char unfit member
    rw [List.all_eq_true.mp all char member] at unfit
    cases unfit
  refine ⟨⟨absent _ (by simp [Dialect.fits, breaksLine]),
    absent _ (by simp [Dialect.fits, breaksLine])⟩, ?_⟩
  obtain rfl | rfl : quote = '\'' ∨ quote = '"' := by simpa [Dialect.isQuote] using known
  · exact .inl (absent _ (by simp [Dialect.fits]))
  · exact .inr (absent _ (by simp [Dialect.fits]))

private theorem breaksLine_of_mem_split {run rest : List Char} {char : Char}
    (member : .lineBreak char ∈ split run rest) : breaksLine char = true := by
  have notMem (run : List Char) : .lineBreak char ∉ ofRun run := by
    unfold ofRun
    split <;> simp
  induction rest generalizing run with
  | nil => exact absurd member (notMem run)
  | cons other rest induction =>
      rw [split] at member
      split at member
      · rename_i breaks
        simp only [List.mem_append, notMem, List.mem_cons, lineBreak.injEq, false_or] at member
        rcases member with rfl | later
        · exact breaks
        · exact induction later
      · split at member
        · simp only [List.mem_append, notMem, false_or] at member
          exact induction member
        · exact induction member

/-- The pieces of a text partition it. They concatenate to it; a quoted run is not empty and holds
no line break and no more than one kind of quote; every other piece is a line break; and one pass
cuts all of them out between character boundaries. -/
theorem ofText_partitions (text : String) :
    String.ofList ((ofText text).flatMap chars) = text ∧
    (∀ run, .quoted run ∈ ofText text →
      run ≠ [] ∧ ('\n' ∉ run ∧ '\r' ∉ run) ∧ ('\'' ∉ run ∨ '"' ∉ run)) ∧
    (∀ char, .lineBreak char ∈ ofText text → char = '\n' ∨ char = '\r') ∧
    cut? text.toList = some (ofText text) := by
  refine ⟨ofList_flatMap_chars text, fun run member => ?_, fun char member => ?_, cut?_eq text⟩
  · obtain ⟨some, quotable⟩ := clean_ofText _ member
    exact ⟨some, quotable.notMem⟩
  · simpa [breaksLine] using breaksLine_of_mem_split member

/-- A text with both quotes, a character of several bytes and two line breaks. -/
def mixedText : String := "«it's» \"x\"\r\n"

theorem ofText_partitions_mixed :
    .quoted ['"', 'x', '"'] ∈ ofText mixedText ∧ .lineBreak '\r' ∈ ofText mixedText ∧
      String.ofList ((ofText mixedText).flatMap chars) = mixedText ∧
      (['"', 'x', '"'] ≠ [] ∧ ('\n' ∉ ['"', 'x', '"'] ∧ '\r' ∉ ['"', 'x', '"']) ∧
        ('\'' ∉ ['"', 'x', '"'] ∨ '"' ∉ ['"', 'x', '"'])) ∧
      ('\r' = '\n' ∨ '\r' = '\r') ∧
      cut? mixedText.toList = some (ofText mixedText) := by
  have pieces : ofText mixedText = [.quoted "«it's» ".toList, .quoted ['"', 'x', '"'],
      .lineBreak '\r', .lineBreak '\n'] := rfl
  have quoted : .quoted ['"', 'x', '"'] ∈ ofText mixedText := by simp [pieces]
  have broken : .lineBreak '\r' ∈ ofText mixedText := by simp [pieces]
  obtain ⟨whole, runs, breaks, cuts⟩ := ofText_partitions mixedText
  exact ⟨quoted, broken, whole, runs _ quoted, breaks _ broken, cuts⟩

end Piece

end Bnf

end ParametricGrammar
