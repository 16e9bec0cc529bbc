import ParametricGrammar.Proofs.Brackets
import ParametricGrammar.Proofs.Printable
/-!
# Colours add nothing

A dump or a trace with colours becomes the one without colours if the escape sequences of the
palette are deleted from it. The two printers are compared piece by piece: a piece of the coloured
text fades to the piece of the plain text that stands in its place. Pieces that hold no escape
character fade to themselves, and matched text is such a piece because it is escaped.
-/

namespace ParametricGrammar

/-! ### Deleting escape sequences -/

namespace Palette

/-- The escape sequences that a palette has. -/
def sequences (palette : Palette) : List (List Char) :=
  ([palette.production, palette.matched, palette.failed, palette.muted, palette.reset].map
    String.toList).filter (!·.isEmpty)

/-- Deletes sequences from a text, after a number of characters that are left of a sequence. -/
def deleteFrom (sequences : List (List Char)) : Nat → List Char → List Char
  | _, [] => []
  | skipped + 1, _ :: rest => deleteFrom sequences skipped rest
  | 0, char :: rest =>
      match sequences.find? (·.isPrefixOf (char :: rest)) with
      | some sequence => deleteFrom sequences (sequence.length - 1) rest
      | none => char :: deleteFrom sequences 0 rest

/-- A text without the escape sequences of a palette. -/
def erase (palette : Palette) (text : String) : String :=
  String.ofList (deleteFrom palette.sequences 0 text.toList)

end Palette

/-- Without its colours, a text is another, whatever stands behind it. -/
def Fades (coloured plain : String) : Prop :=
  ∀ rest : List Char,
    Palette.deleteFrom Palette.coloured.sequences 0 (coloured.toList ++ rest) =
      plain.toList ++ Palette.deleteFrom Palette.coloured.sequences 0 rest

namespace Fades

variable {left left' right right' text : String}

private theorem erase (fades : Fades left left') : Palette.coloured.erase left = left' := by
  have alone := fades []
  rw [List.append_nil, Palette.deleteFrom, List.append_nil] at alone
  rw [Palette.erase, alone, String.ofList_toList]

private theorem map_erase {lefts rights : List String} (fades : List.Forall₂ Fades lefts rights) :
    lefts.map Palette.coloured.erase = rights := by
  induction fades with
  | nil => rfl
  | cons first _ induction => rw [List.map_cons, first.erase, induction]

private theorem append (first : Fades left left') (second : Fades right right') :
    Fades (left ++ right) (left' ++ right') := by
  intro rest
  rw [String.toList_append, String.toList_append, List.append_assoc, first, second,
    List.append_assoc]

private theorem choice {condition : Prop} [Decidable condition] (first : Fades left left')
    (second : Fades right right') :
    Fades (if condition then left else right) (if condition then left' else right') := by
  split
  · exact first
  · exact second

private theorem production : Fades Palette.coloured.production Palette.plain.production :=
  fun _ => rfl

private theorem matched : Fades Palette.coloured.matched Palette.plain.matched := fun _ => rfl

private theorem failed : Fades Palette.coloured.failed Palette.plain.failed := fun _ => rfl

private theorem muted : Fades Palette.coloured.muted Palette.plain.muted := fun _ => rfl

private theorem reset : Fades Palette.coloured.reset Palette.plain.reset := fun _ => rfl

/-- Every sequence starts with the escape character, so nothing is deleted from text that has
none. -/
theorem free (free : '\x1b' ∉ text.toList) : Fades text text := by
  intro rest
  generalize text.toList = chars at free
  induction chars with
  | nil => rfl
  | cons char chars induction =>
      rw [List.mem_cons, not_or] at free
      have none : Palette.coloured.sequences.find? (·.isPrefixOf (char :: (chars ++ rest))) =
          none := by
        simp [Palette.sequences, Palette.coloured, free.1]
      rw [List.cons_append, Palette.deleteFrom, none, induction free.2]
      rfl

private theorem printable (printable : IsPrintable text) : Fades text text :=
  free (printable.notMem rfl)

private theorem decimal (value : Nat) : Fades (Numeral.decimal value) (Numeral.decimal value) :=
  printable (isPrintable_decimal value)

private theorem parameters (parameters : Parameters) : Fades parameters.text parameters.text :=
  printable parameters.isPrintable_text

private theorem escaped (text : List Char) : Fades (escapeText text) (escapeText text) :=
  printable (isPrintable_escapeText text)

end Fades

/-! ### Dumps -/

namespace Tree

variable {spans parameters : Bool} {tree : Tree}

private theorem isPrintable_indentation (depth : Nat) : IsPrintable (indentation depth) := by
  refine .join fun blanks member => ?_
  obtain rfl := List.eq_of_mem_replicate member
  simp [IsPrintable, isControl]

private theorem fades_label (source : List Char) (name : '\x1b' ∉ tree.name.toList) :
    Fades (label ⟨spans, parameters, .coloured⟩ source tree)
      (label ⟨spans, parameters, .plain⟩ source tree) := by
  have nothing : Fades "" "" := .free (by decide)
  have opening : Fades "(" "(" := .free (by decide)
  have blank : Fades " " " " := .free (by decide)
  have quote : Fades "\"" "\"" := .free (by decide)
  unfold label
  refine ((opening.append .production |>.append (.free name) |>.append .reset).append
    (.choice ?parameters nothing) |>.append (.choice ?leaf nothing)).append (.choice ?span nothing)
  case parameters => exact (Fades.muted.append (.parameters tree.parameters)).append .reset
  case leaf =>
    exact (blank.append .matched).append quote |>.append (.escaped _) |>.append quote |>.append
      .reset
  case span =>
    exact (blank.append .muted).append (.free (by decide)) |>.append (.decimal tree.start) |>.append
      (.free (by decide)) |>.append (.decimal tree.stop) |>.append (.free (by decide)) |>.append
      .reset

mutual

private theorem fades_dumpFrom (source : List Char) (depth : Nat) : ∀ tree : Tree,
    (∀ entry ∈ tree.preorder depth, '\x1b' ∉ entry.2.name.toList) →
      Fades (dumpFrom ⟨spans, parameters, .coloured⟩ source depth tree)
        (dumpFrom ⟨spans, parameters, .plain⟩ source depth tree)
  | ⟨name, bound, content, start, stop⟩, names => by
      rw [preorder, List.forall_mem_cons] at names
      rw [dumpFrom, dumpFrom]
      refine .append (.append (.append ?_ (fades_label source names.1)) ?_) ?_
      · exact .printable (isPrintable_indentation depth)
      · exact fades_dumpAll source (depth + 1) content names.2
      · exact .free (by decide)

private theorem fades_dumpAll (source : List Char) (depth : Nat) : ∀ trees : List Tree,
    (∀ entry ∈ preorderAll depth trees, '\x1b' ∉ entry.2.name.toList) →
      Fades (dumpAll ⟨spans, parameters, .coloured⟩ source depth trees)
        (dumpAll ⟨spans, parameters, .plain⟩ source depth trees)
  | [], _ => by
      rw [dumpAll, dumpAll]
      exact .free (by decide)
  | tree :: rest, names => by
      rw [preorderAll, List.forall_mem_append] at names
      rw [dumpAll, dumpAll]
      refine .append (.append ?_ (fades_dumpFrom source depth tree names.1)) ?_
      · exact .free (by decide)
      · exact fades_dumpAll source depth rest names.2

end

end Tree

/-! ### Traces -/

/-- The name of the production that an event is about. -/
def Event.name : Event → String
  | .enter call | .success call _ | .failure call | .hit call => call.name
  | .zeroWidth production _ => production

namespace TraceView

variable {source : List Char} {verbosity : Verbosity}

private theorem fades_parametersText (parameters : Parameters) :
    Fades (parametersText ⟨source, verbosity, .coloured⟩ parameters)
      (parametersText ⟨source, verbosity, .plain⟩ parameters) := by
  unfold parametersText
  exact .choice (.free (by decide)) ((Fades.muted.append (.parameters parameters)).append .reset)

private theorem fades_closingParameters (parameters : Parameters) :
    Fades (closingParameters ⟨source, verbosity, .coloured⟩ parameters)
      (closingParameters ⟨source, verbosity, .plain⟩ parameters) := by
  unfold closingParameters
  exact .choice (fades_parametersText parameters) (.free (by decide))

private theorem fades_matchedText (start stop : Nat) :
    Fades (matchedText ⟨source, verbosity, .coloured⟩ start stop)
      (matchedText ⟨source, verbosity, .plain⟩ start stop) := by
  have blank : Fades " " " " := .free (by decide)
  have quote : Fades "\"" "\"" := .free (by decide)
  unfold matchedText
  refine (blank.append .matched).append quote |>.append ?shown |>.append quote |>.append .reset
  exact .choice (.escaped _) ((Fades.escaped _).append (.free (by decide)))

private theorem fades_line? {event : Event} (name : '\x1b' ∉ event.name.toList) :
    Option.Rel Fades (line? ⟨source, verbosity, .coloured⟩ event)
      (line? ⟨source, verbosity, .plain⟩ event) := by
  have blank : Fades " " " " := .free (by decide)
  have place : Fades " @" " @" := .free (by decide)
  cases event with
  | enter call =>
      refine .some ?_
      exact (Fades.production.append (.free name)).append .reset |>.append
        (fades_parametersText call.parameters) |>.append place |>.append (.decimal call.offset)
  | success call stop =>
      refine .some ?_
      exact (Fades.matched.append (.free (by decide))).append .reset |>.append blank |>.append
        (.free name) |>.append (fades_closingParameters call.parameters) |>.append blank |>.append
        (.decimal call.offset) |>.append (.free (by decide)) |>.append (.decimal stop) |>.append
        (.choice (.free (by decide)) (fades_matchedText call.offset stop))
  | failure call =>
      refine .some ?_
      exact (Fades.failed.append (.free (by decide))).append .reset |>.append blank |>.append
        (.free name) |>.append (fades_closingParameters call.parameters) |>.append place |>.append
        (.decimal call.offset)
  | hit call =>
      rw [line?, line?]
      split
      · exact .none
      · refine .some ?_
        exact (Fades.muted.append (.free (by decide))).append (.free name) |>.append
          (fades_parametersText call.parameters) |>.append place |>.append
          (.decimal call.offset) |>.append (.free (by decide)) |>.append .reset
  | zeroWidth production offset =>
      refine .some ?_
      exact (Fades.failed.append (.free (by decide))).append .reset |>.append
        (.free (by decide)) |>.append (.free name) |>.append place |>.append (.decimal offset)

private theorem fades_indented {left right : Option String} (depth : Nat)
    (fades : Option.Rel Fades left right) :
    List.Forall₂ Fades (left.map (Tree.indentation depth ++ ·)).toList
      (right.map (Tree.indentation depth ++ ·)).toList := by
  cases fades with
  | none => exact .nil
  | some fades =>
      exact .cons (.append (.printable (Tree.isPrintable_indentation depth)) fades) .nil

private theorem fades_lines (depth : Nat) {events : List Event}
    (names : ∀ event ∈ events, '\x1b' ∉ event.name.toList) :
    List.Forall₂ Fades (lines ⟨source, verbosity, .coloured⟩ depth events)
      (lines ⟨source, verbosity, .plain⟩ depth events) := by
  induction events generalizing depth with
  | nil => exact .nil
  | cons event events induction =>
      rw [List.forall_mem_cons] at names
      rw [lines_cons, lines_cons]
      apply List.rel_append
      · exact fades_indented (lineDepth depth event) (fades_line? names.1)
      · exact induction (depthAfter depth event) names.2

end TraceView

/-! ### Both printers -/

namespace Palette

/-- Colours never change content. If names have no escape character, a dump or the lines of a trace
with colours become those without colours when the escape sequences of the palette are deleted,
whatever the source holds. -/
theorem erase_coloured (source : List Char) {tree : Tree} {events : List Event}
    (names : ∀ entry ∈ tree.preorder 0, '\x1b' ∉ entry.2.name.toList)
    (reported : ∀ event ∈ events, '\x1b' ∉ event.name.toList) :
    (∀ spans parameters : Bool,
      coloured.erase (Tree.dump ⟨spans, parameters, .coloured⟩ source tree) =
        Tree.dump ⟨spans, parameters, .plain⟩ source tree) ∧
      ∀ (verbosity : Verbosity) (depth : Nat),
        (TraceView.lines ⟨source, verbosity, .coloured⟩ depth events).map coloured.erase =
          TraceView.lines ⟨source, verbosity, .plain⟩ depth events := by
  constructor
  · intro spans parameters
    apply Fades.erase
    exact (Tree.fades_dumpFrom source 0 tree names).append (.free (by decide))
  · intro verbosity depth
    exact Fades.map_erase (TraceView.fades_lines depth reported)

/-- An escape sequence of the palette. -/
def red : List Char := ['\x1b', '[', '3', '1', 'm']

/-- A node that covers an escape sequence. -/
def redText : Tree := ⟨"text", { n := some 1 }, [], 0, 5⟩

/-- A run that matched an escape sequence. -/
def redEvents : List Event :=
  [.enter ⟨"text", { n := some 1 }, 0⟩, .success ⟨"text", { n := some 1 }, 0⟩ 5]

theorem erase_coloured_red :
    (∀ entry ∈ redText.preorder 0, '\x1b' ∉ entry.2.name.toList) ∧
      (∀ event ∈ redEvents, '\x1b' ∉ event.name.toList) ∧
      (∀ spans parameters : Bool,
        coloured.erase (Tree.dump ⟨spans, parameters, .coloured⟩ red redText) =
          Tree.dump ⟨spans, parameters, .plain⟩ red redText) ∧
      ∀ (verbosity : Verbosity) (depth : Nat),
        (TraceView.lines ⟨red, verbosity, .coloured⟩ depth redEvents).map coloured.erase =
          TraceView.lines ⟨red, verbosity, .plain⟩ depth redEvents := by
  have names : ∀ entry ∈ redText.preorder 0, '\x1b' ∉ entry.2.name.toList := by
    simp [redText, Tree.preorder, Tree.preorderAll]
  have reported : ∀ event ∈ redEvents, '\x1b' ∉ event.name.toList := by
    simp [redEvents, Event.name]
  exact ⟨names, reported, erase_coloured red names reported⟩

/-- An escape sequence of the source is shown escaped, with colours and without. -/
example : Tree.dump { palette := coloured } ['\x1b', '[', '3', '1', 'm']
    ⟨"text", .empty, [], 0, 5⟩ =
      "(\x1b[34mtext\x1b[0m \x1b[32m\"\\u{001b}[31m\"\x1b[0m)\n" := by
  decide

end Palette

end ParametricGrammar
