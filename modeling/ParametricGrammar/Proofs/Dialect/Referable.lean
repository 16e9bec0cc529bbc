import ParametricGrammar.Proofs.Dialect.ClauseTranslation
import ParametricGrammar.Proofs.References
/-!
# Names that bodies can mention

The head of a clause takes every name, but a body reads a name that starts like a code point as
that: `xA` is the line feed. So a production can be mentioned by its name exactly if the name does
not start so.
-/

namespace ParametricGrammar

namespace Bnf

open Dialect

/-- The only name of a compiled grammar is one. -/
theorem isName_of_compile {text name : String} {grammar : Grammar}
    (compiles : compile text = .ok grammar) (names : grammar.names = [name]) :
    isName name.toList = true := by
  have member : name ∈ grammar.entries.map Prod.fst := by
    rw [← Grammar.names, names]
    exact List.mem_singleton.mpr rfl
  obtain ⟨entry, among, rfl⟩ := List.mem_map.mp member
  exact (compiledGrammar_of_compile compiles entry among).1

/-- The body of a compiled production mentions no name that starts like a code point. -/
theorem isHexLike_of_call {text name : String} {grammar : Grammar} {entry : String × Production}
    (compiles : compile text = .ok grammar) (member : entry ∈ grammar.entries)
    (calls : entry.2.body = .call name) : isHexLike name.toList = false := by
  have body := (compiledGrammar_of_compile compiles entry member).2.body
  rw [calls] at body
  cases body with
  | plain compiled =>
      generalize same : Node.call name = node at compiled
      cases compiled with
      | reference valid other all =>
          obtain ⟨rfl, rfl⟩ := Node.reference.inj same
          rwa [String.toList_ofList]
      | marked mark => cases mark <;> cases same
      | _ => cases same

/-- A clause whose body is a name that does not start like a code point calls that name. -/
theorem compile_call {name caller : String} (valid : isName name.toList = true)
    (validCaller : isName caller.toList = true) (apart : name ≠ caller)
    (other : isHexLike name.toList = false) :
    compile (name ++ " ::= 'a'\n" ++ caller ++ " ::= " ++ name) =
      .ok (.ofList [(name, { body := .literal "a" }), (caller, { body := .call name })]) := by
  let letter : Definition :=
    ⟨name.toList, .ofAtom (Atom.quoted '\'' ['a'] rfl (by simp) (by decide)), valid⟩
  let calling : Definition :=
    ⟨caller.toList, .ofAtom (Atom.reference name.toList valid other), validCaller⟩
  have distinct : ([letter, calling].map Definition.name).Nodup := by
    simpa [letter, calling, String.toList_inj] using apart
  have shallow : ∀ definition ∈ [letter, calling], definition.body.nesting ≤ 1014 := by
    simp [letter, calling, Atom.quoted, Atom.reference]
  have entries : [letter, calling].map Definition.entry =
      [(name, { body := .literal "a" }), (caller, { body := .call name })] := by
    simp [letter, calling, Definition.entry, Atom.quoted, Atom.reference, Meaning.literal,
      Meaning.reference]
  have whole : name ++ " ::= 'a'\n" ++ caller ++ " ::= " ++ name =
      String.ofList (letter.chars ++ written ['\n'] ([calling].map Definition.item)) := by
    rw [← String.toList_inj]
    simp [letter, calling, Definition.chars, Definition.item, clauseChars, optionalChars, written,
      Atom.quoted, Atom.reference]
  rw [whole, Definition.compile_written distinct shallow, entries]

/-- Definable names can be called. Of two different names that a text can define, one is defined and
the other calls it. If the name that is called does not start like a code point, the text is
compiled to these two productions. Otherwise no grammar that it is compiled to has the call. -/
theorem called_unless_hexLike {name caller : String} {left right : Grammar}
    (apart : name ≠ caller)
    (defines : compile (name ++ " ::= 'a'") = .ok left) (only : left.names = [name])
    (definesCaller : compile (caller ++ " ::= 'a'") = .ok right)
    (onlyCaller : right.names = [caller]) :
    (isHexLike name.toList = false →
      compile (name ++ " ::= 'a'\n" ++ caller ++ " ::= " ++ name) =
        .ok (.ofList [(name, { body := .literal "a" }), (caller, { body := .call name })])) ∧
    (isHexLike name.toList = true → ∀ grammar,
      compile (name ++ " ::= 'a'\n" ++ caller ++ " ::= " ++ name) = .ok grammar →
        ∀ production, grammar.get? caller = some production → production.body ≠ .call name) := by
  refine ⟨fun other => ?_, fun same grammar compiles production found calls => ?_⟩
  · exact compile_call (isName_of_compile defines only) (isName_of_compile definesCaller onlyCaller)
      apart other
  · have other := isHexLike_of_call compiles (Grammar.mem_entries_of_get? found) calls
    rw [same] at other
    cases other

/-- A name that starts with `x` and a hexadecimal digit, but goes on as a name. -/
theorem called_unless_hexLike_xAz :
    ("xAz" ≠ "p" ∧ (∃ left, compile "xAz ::= 'a'" = .ok left ∧ left.names = ["xAz"]) ∧
      ∃ right, compile "p ::= 'a'" = .ok right ∧ right.names = ["p"]) ∧
    isHexLike "xAz".toList = false ∧
    compile "xAz ::= 'a'\np ::= xAz" =
      .ok (.ofList [("xAz", { body := .literal "a" }), ("p", { body := .call "xAz" })]) := by
  have text : "xAz" ++ " ::= 'a'" = "xAz ::= 'a'" := by decide
  have textCaller : "p" ++ " ::= 'a'" = "p ::= 'a'" := by decide
  have whole : "xAz" ++ " ::= 'a'\n" ++ "p" ++ " ::= " ++ "xAz" = "xAz ::= 'a'\np ::= xAz" := by
    decide
  have defines : compile "xAz ::= 'a'" = .ok (.ofList [("xAz", { body := .literal "a" })]) :=
    compile_of_uncached (by decide +kernel)
  have definesCaller : compile "p ::= 'a'" = .ok (.ofList [("p", { body := .literal "a" })]) :=
    compile_of_uncached (by decide +kernel)
  have only : (Grammar.ofList [("xAz", { body := .literal "a" })]).names = ["xAz"] := by decide
  have onlyCaller : (Grammar.ofList [("p", { body := .literal "a" })]).names = ["p"] := by decide
  have other : isHexLike "xAz".toList = false := by decide
  have calls := (called_unless_hexLike (by decide) (text ▸ defines) only
    (textCaller ▸ definesCaller) onlyCaller).1 other
  rw [whole] at calls
  exact ⟨⟨by decide, ⟨_, defines, only⟩, _, definesCaller, onlyCaller⟩, other, calls⟩

/-- The name `xA` can be defined, but what is written to call it is the line feed. -/
theorem lineFeed_not_called :
    "xA" ≠ "p" ∧ (∃ left, compile "xA ::= 'a'" = .ok left ∧ left.names = ["xA"]) ∧
    (∃ right, compile "p ::= 'a'" = .ok right ∧ right.names = ["p"]) ∧
    ∃ grammar, compile "xA ::= 'a'\np ::= xA" = .ok grammar ∧
      grammar.get? "p" = some { body := .chars (.single 10) } := by
  have defines : compile "xA ::= 'a'" = .ok (.ofList [("xA", { body := .literal "a" })]) :=
    compile_of_uncached (by decide +kernel)
  have definesCaller : compile "p ::= 'a'" = .ok (.ofList [("p", { body := .literal "a" })]) :=
    compile_of_uncached (by decide +kernel)
  have reads : compile "xA ::= 'a'\np ::= xA" =
      .ok (.ofList [("xA", { body := .literal "a" }), ("p", { body := .chars (.single 10) })]) :=
    compile_of_uncached (by decide +kernel)
  exact ⟨by decide, ⟨_, defines, by decide +kernel⟩, ⟨_, definesCaller, by decide +kernel⟩,
    _, reads, by decide +kernel⟩

end Bnf

end ParametricGrammar
