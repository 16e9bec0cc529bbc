import ParametricGrammar.Proofs.Dialect.Definitions
/-!
# The dialect in itself

The lines of the dialect are definitions, so its text is compiled to what they stand for. That is
the assembled grammar of the dialect, body by body, and reading grammar texts with either is the
same.
-/

namespace ParametricGrammar

namespace Bnf

namespace Dialect

namespace Bootstrap

/-! ### Ways to write -/

/-- A part of a row without a mark. -/
def plain (atom : Phrase "atom" EndsAtom) : Phrase "difference" EndsDifference :=
  difference (Quantified.plain atom) []

/-- A part of a row with a mark. -/
def marked (atom : Phrase "atom" EndsAtom) (mark : Mark) : Phrase "difference" EndsDifference :=
  difference (Quantified.marked atom mark) []

/-- One atom without others. -/
def without (atom : Phrase "atom" EndsAtom) (excluded : List (Phrase "atom" EndsAtom)) :
    Phrase "difference" EndsDifference :=
  difference (Quantified.plain atom) (excluded.map Quantified.plain)

/-- A row of one part. -/
def only (part : Phrase "difference" EndsDifference) : Phrase "sequence" EndsSequence :=
  sequence part []

/-- A reference by its name. -/
def reference (name : String) (valid : isName name.toList = true := by decide)
    (other : isHexLike name.toList = false := by decide) : Phrase "atom" EndsAtom :=
  Atom.reference name.toList valid other

/-- A quoted text. -/
def quoted (text : String) (quote : Char := '\'') (known : isQuote quote = true := by decide)
    (some : text.toList ≠ [] := by decide)
    (all : text.toList.all (fits quote) = true := by decide) : Phrase "atom" EndsAtom :=
  Atom.quoted quote text.toList known some all

/-- A code point of two digits. -/
def point (digits : String) (code : ℕ)
    (all : digits.toList.all isHexDigit = true := by decide)
    (value : Numeral.natural? 16 digits.toList = some code := by decide)
    (valid : code ≤ CharSet.maxCodePoint.toNat := by decide) : Phrase "atom" EndsAtom :=
  Atom.hex digits.toList code all value valid

/-- The characters between two. -/
def between (first last : Char) (fitFirst : fits '\'' first = true := by decide)
    (fitLast : fits '\'' last = true := by decide) : Phrase "difference" EndsDifference :=
  plain (Atom.range (.quoted '\'' first rfl fitFirst) (.quoted '\'' last rfl fitLast))

/-- Part of a row that calls a production. -/
def call (name : String) (valid : isName name.toList = true := by decide)
    (other : isHexLike name.toList = false := by decide) :
    Phrase "difference" EndsDifference :=
  plain (reference name valid other)

/-- Parts of a row that call a production as often as a mark allows. -/
def calls (name : String) (mark : Mark) (valid : isName name.toList = true := by decide)
    (other : isHexLike name.toList = false := by decide) :
    Phrase "difference" EndsDifference :=
  marked (reference name valid other) mark

/-- Part of a row that is a quoted text. -/
def word (text : String) (some : text.toList ≠ [] := by decide)
    (all : text.toList.all (fits '\'') = true := by decide) :
    Phrase "difference" EndsDifference :=
  plain (quoted text '\'' rfl some all)

/-- A group of alternatives. -/
def group (first : Phrase "sequence" EndsSequence)
    (more : List (Phrase "sequence" EndsSequence)) : Phrase "atom" EndsAtom :=
  Atom.group (alternation first more)

/-- A part of a row that excludes another part from what comes next. -/
def excluding (part : Phrase "difference" EndsDifference) : Phrase "difference" EndsDifference :=
  plain (Atom.lookahead false (alternation (only part) []))

/-- A definition of a name by alternatives. -/
def clause (name : String) (first : Phrase "sequence" EndsSequence)
    (more : List (Phrase "sequence" EndsSequence) := [])
    (valid : isName name.toList = true := by decide) : Definition :=
  ⟨name.toList, alternation first more, valid⟩

/-! ### The lines of the dialect -/

/-- The definition of a whole grammar text. -/
def root : Definition :=
  clause "grammar" (sequence (calls "production" .zeroOrMore)
    [call "s-ignorable", plain (Atom.special "end-of-input" .endOfInput (by simp [specials]))])

/-- The definitions of clauses and their bodies. -/
def bodies : List Definition :=
  [ clause "production" (sequence (call "s-ignorable")
      [ calls "section-number" .optional, call "production-name",
        calls "parameter-list" .optional, call "s-ignorable", word "::=", call "alternation" ]),
    clause "production-head" (sequence (calls "section-number" .optional)
      [ call "production-name", calls "parameter-list" .optional, call "s-ignorable",
        word "::=" ]),
    clause "section-number" (sequence (word "[") [call "decimal", word "]", call "s-ignorable"]),
    clause "alternation" (sequence (call "s-ignorable")
      [ call "sequence",
        marked (group (sequence (call "s-ignorable")
          [word "|", call "s-ignorable", call "sequence"]) []) .zeroOrMore ]),
    clause "sequence" (sequence (call "difference")
      [ marked (group (sequence (call "s-ignorable")
          [excluding (call "production-head"), call "difference"]) []) .zeroOrMore ]),
    clause "difference" (sequence (call "quantified")
      [ marked (group (sequence (call "s-ignorable")
          [word "-", call "s-ignorable", call "quantified"]) []) .zeroOrMore ]),
    clause "quantified" (sequence (call "atom") [calls "quantifier" .optional]),
    clause "quantifier" (only (word "?"))
      [ only (word "*"), only (word "+"),
        sequence (word "\x7b")
          [ calls "s-space" .zeroOrMore, call "param-sum", calls "s-space" .zeroOrMore,
            word "\x7d" ] ],
    clause "atom" (only (call "lookaround"))
      [ only (call "special"), only (call "group"), only (call "code-point-range"),
        only (call "hex-char"), only (call "quoted-string"), only (call "any-char"),
        only (call "reference") ] ]

/-- The definitions of lookarounds, names in angle brackets, groups and characters. -/
def atoms : List Definition :=
  [ clause "lookaround" (sequence (word "[")
      [ calls "s-space" .zeroOrMore,
        plain (group (only (call "lookahead-negative"))
          [only (call "lookahead-positive"), only (call "lookbehind-positive")]),
        call "alternation", call "s-ignorable", word "]" ]),
    clause "lookahead-positive" (sequence (word "lookahead")
      [calls "s-space" .zeroOrMore, word "="]),
    clause "lookahead-negative" (sequence (word "lookahead")
      [ calls "s-space" .zeroOrMore,
        plain (group (only (word "≠")) [only (word "!=")]) ]),
    clause "lookbehind-positive" (sequence (word "lookbehind")
      [calls "s-space" .zeroOrMore, word "="]),
    clause "special" (sequence (word "<") [calls "name-char" .oneOrMore, word ">"]),
    clause "group" (sequence (word "(") [call "alternation", call "s-ignorable", word ")"]),
    clause "code-point-range" (sequence (word "[")
      [call "range-bound", word "-", call "range-bound", word "]"]),
    clause "range-bound" (only (call "hex-char")) [only (call "quoted-char")],
    clause "hex-char" (sequence (word "x")
      [calls "hex-digit" .oneOrMore, excluding (call "alnum")]),
    clause "quoted-string"
      (sequence (plain (quoted "'" '"'))
        [calls "single-quoted-char" .oneOrMore, plain (quoted "'" '"')])
      [sequence (word "\"") [calls "double-quoted-char" .oneOrMore, word "\""]],
    clause "quoted-char"
      (sequence (plain (quoted "'" '"'))
        [call "single-quoted-char", plain (quoted "'" '"')])
      [sequence (word "\"") [call "double-quoted-char", word "\""]],
    clause "single-quoted-char" (only (without Atom.any
      [quoted "'" '"', point "0A" 0x0A, point "0D" 0x0D])),
    clause "double-quoted-char" (only (without Atom.any
      [quoted "\"", point "0A" 0x0A, point "0D" 0x0D])),
    clause "any-char" (only (word ".")),
    clause "reference" (sequence (call "production-name") [calls "parameter-list" .optional]),
    clause "production-name" (sequence (call "alpha")
      [ marked (group (only (call "alnum"))
          [sequence (call "name-joiner") [call "alnum"]]) .zeroOrMore ]),
    clause "name-joiner" (only (word "-")) [only (word "+")] ]

/-- The definitions of parameters. -/
def parameters : List Definition :=
  [ clause "parameter-list" (sequence (word "(")
      [ calls "s-space" .zeroOrMore, call "parameter",
        marked (group (sequence (calls "s-space" .zeroOrMore)
          [word ",", calls "s-space" .zeroOrMore, call "parameter"]) []) .zeroOrMore,
        calls "s-space" .zeroOrMore, word ")" ]),
    clause "parameter" (only (call "in-flow"))
      [only (call "context-value"), only (call "chomping-value"), only (call "param-sum")],
    clause "in-flow" (sequence (word "in-flow(")
      [ calls "s-space" .zeroOrMore, call "param-variable", calls "s-space" .zeroOrMore,
        word ")" ]),
    clause "context-value" (sequence
      (plain (group (only (word "block-in"))
        [ only (word "block-out"), only (word "block-key"), only (word "flow-in"),
          only (word "flow-out"), only (word "flow-key"), only (word "annotation-in") ]))
      [excluding (call "name-char")]),
    clause "chomping-value" (sequence
      (plain (group (only (word "strip")) [only (word "clip"), only (word "keep")]))
      [excluding (call "name-char")]),
    clause "param-sum" (sequence (call "param-term")
      [ marked (group (sequence (calls "s-space" .zeroOrMore)
          [call "sum-operator", calls "s-space" .zeroOrMore, call "param-term"]) [])
          .zeroOrMore ]),
    clause "param-term" (only (call "param-variable")) [only (call "decimal")],
    clause "param-variable" (sequence
      (plain (group (only (word "n")) [only (word "m"), only (word "c"), only (word "t")]))
      [excluding (call "alnum")]),
    clause "sum-operator" (only (word "+")) [only (word "-")],
    clause "decimal" (sequence (marked (quoted "-") .optional) [calls "digit" .oneOrMore]) ]

/-- The definitions of letters and of what is ignored. -/
def letters : List Definition :=
  [ clause "name-char" (only (call "alnum")) [only (word "-"), only (word "+")],
    clause "alnum" (only (call "alpha")) [only (call "digit")],
    clause "alpha" (only (between 'a' 'z')) [only (between 'A' 'Z')],
    clause "digit" (only (between '0' '9')),
    clause "hex-digit" (only (call "digit")) [only (between 'a' 'f'), only (between 'A' 'F')],
    clause "s-ignorable" (only (marked (group (only (call "s-space"))
      [only (call "b-break"), only (call "comment")]) .zeroOrMore)),
    clause "s-space" (only (plain (point "20" 0x20))) [only (plain (point "09" 0x09))],
    clause "b-break" (only (plain (point "0A" 0x0A))) [only (plain (point "0D" 0x0D))],
    clause "comment" (only (call "line-comment")) [only (call "block-comment")],
    clause "line-comment" (sequence (word "#")
      [ marked (group (only (without Atom.any [point "0A" 0x0A, point "0D" 0x0D])) [])
          .zeroOrMore ]),
    clause "block-comment" (sequence (word "/*")
      [ marked (group (sequence (excluding (word "*/")) [plain Atom.any]) []) .zeroOrMore,
        word "*/" ]) ]

/-- The definitions behind the first. -/
def others : List Definition := bodies ++ atoms ++ parameters ++ letters

/-- The comment on the line before the first definition. -/
def comment : List Char := " BNF dialect accepted by yamlgram.".toList

set_option maxRecDepth 20000 in
private theorem lines_eq :
    Dialect.lines =
      String.ofList ('#' :: comment) ::
        (root :: others).map fun definition => String.ofList definition.chars := by
  rfl

private theorem entries_eq :
    (root :: others).map Definition.entry =
      rules.map fun (name, body) => (name, { body := body }) := by
  rfl

private theorem text_eq :
    Dialect.text = String.ofList ('#' :: (comment ++ ['\n']) ++
      textOf ((root :: others).map Definition.item)) := by
  rw [← String.toList_inj, String.toList_ofList, Dialect.text, String.toList_join, lines_eq]
  simp [textOf, List.flatMap_map, Definition.item]

private theorem ignorable_comment : Ignorable ('#' :: (comment ++ ['\n'])) := by
  have plain : comment.all (fun char => !Piece.breaksLine char) = true := by decide
  exact .comment (by simpa using plain) (.blank rfl .nil)

private theorem distinct_names : ((root :: others).map Definition.name).Nodup := by
  have names : ((root :: others).map Definition.name).map String.ofList = rules.map Prod.fst :=
    calc ((root :: others).map Definition.name).map String.ofList
        = ((root :: others).map Definition.entry).map Prod.fst := by
          rw [List.map_map, List.map_map]
          exact List.map_congr_left fun _ _ => rfl
      _ = rules.map Prod.fst := by
          rw [entries_eq, List.map_map]
          exact List.map_congr_left fun _ _ => rfl
  refine .of_map String.ofList ?_
  rw [names]
  exact nodup_rules

private theorem shallow : ∀ definition ∈ root :: others, definition.body.nesting ≤ 1014 := by
  decide

/-- The text of the dialect defines the dialect. -/
theorem compile_text : compile Dialect.text = .ok grammar := by
  rw [text_eq, Definition.compile_textOf ignorable_comment distinct_names shallow, entries_eq]
  rfl

/-- The dialect compiled from its own text reads every text as the assembled one does: parses
agree, and so do the grammars of grammar texts. -/
theorem compiled_agrees :
    ∃ compiled, compile Dialect.text = .ok compiled ∧
      (∀ (text : List Char) (root : String) (limit : ℕ) (cached : Bool),
        Setting.parseAll ⟨compiled, cached, limit⟩ root text =
          Setting.parseAll ⟨grammar, cached, limit⟩ root text) ∧
      ∀ text : String, compileWith compiled text = compile text :=
  ⟨grammar, compile_text, fun _ _ _ _ => rfl, fun _ => rfl⟩

end Bootstrap

end Dialect

end Bnf

end ParametricGrammar
