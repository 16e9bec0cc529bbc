import ParametricGrammar.Bnf.Error
import ParametricGrammar.Cursor
import ParametricGrammar.Terminal.Excerpt
/-!
# Reports of compile errors

A report names an error, and the place that it is about with an excerpt of the source if there is
one.
-/

namespace ParametricGrammar

namespace Diagnostic

open Terminal

/-- A span inside a text, an empty one widened to the next character. -/
def visibleSpan (source : List Char) (span : Span) : Span :=
  let size := byteLength source
  let start := min span.start size
  let stop := min span.stop size
  if start = stop then
    match splitBytes? start [] source with
    | some (_, char :: _) => ⟨start, start + char.utf8Size⟩
    | _ => ⟨start, start⟩
  else ⟨start, stop⟩

/-- How reports are printed. -/
structure ReportOptions where
  path : Option String := none
  colours : Bool := false

/-- The report of an error, with the source that its span is about if there is one. -/
def report (options : ReportOptions) (source : Option (List Char)) (error : CompileError) :
    String :=
  match source, error.span? with
  | some source, some span =>
      let message := error.message.toList
      let visible := visibleSpan source span
      let excerpt := Excerpt.between source visible.start visible.stop
      let location := match options.path with
        | some path => [placeRow path excerpt.numberWidth excerpt.start]
        | none => []
      let rows := title (message.flatMap shown) ++ location ++ excerpt.rows message
      joined "\n" (rows.map (Row.text options.colours))
  | _, _ => "error: " ++ error.message

end Diagnostic

end ParametricGrammar
