import ParametricGrammar.Grammar
/-!
# The dialect of grammar texts

The grammar that grammar texts are read with, assembled from expressions so that reading a text
never depends on one read before, and the same grammar written in its own dialect. Its root is the
production `grammar`.
-/

namespace ParametricGrammar

namespace Bnf

namespace Dialect

/-- The lines of the dialect written in itself, production by production. -/
def lines : List String :=
  [ "# BNF dialect accepted by yamlgram.",
    "grammar ::= production* s-ignorable <end-of-input>",
    "production ::= s-ignorable section-number? production-name parameter-list? s-ignorable " ++
      "'::=' alternation",
    "production-head ::= section-number? production-name parameter-list? s-ignorable '::='",
    "section-number ::= '[' decimal ']' s-ignorable",
    "alternation ::= s-ignorable sequence ( s-ignorable '|' s-ignorable sequence )*",
    "sequence ::= difference ( s-ignorable [ lookahead ≠ production-head ] difference )*",
    "difference ::= quantified ( s-ignorable '-' s-ignorable quantified )*",
    "quantified ::= atom quantifier?",
    -- The escapes stand for braces.
    "quantifier ::= '?' | '*' | '+' | '\x7b' s-space* param-sum s-space* '\x7d'",
    "atom ::= lookaround | special | group | code-point-range | hex-char | quoted-string" ++
      " | any-char | reference",
    "lookaround ::= '[' s-space* ( lookahead-negative | lookahead-positive" ++
      " | lookbehind-positive ) alternation s-ignorable ']'",
    "lookahead-positive ::= 'lookahead' s-space* '='",
    "lookahead-negative ::= 'lookahead' s-space* ( '≠' | '!=' )",
    "lookbehind-positive ::= 'lookbehind' s-space* '='",
    "special ::= '<' name-char+ '>'",
    "group ::= '(' alternation s-ignorable ')'",
    "code-point-range ::= '[' range-bound '-' range-bound ']'",
    "range-bound ::= hex-char | quoted-char",
    "hex-char ::= 'x' hex-digit+ [ lookahead ≠ alnum ]",
    "quoted-string ::= \"'\" single-quoted-char+ \"'\" | '\"' double-quoted-char+ '\"'",
    "quoted-char ::= \"'\" single-quoted-char \"'\" | '\"' double-quoted-char '\"'",
    "single-quoted-char ::= . - \"'\" - x0A - x0D",
    "double-quoted-char ::= . - '\"' - x0A - x0D",
    "any-char ::= '.'",
    "reference ::= production-name parameter-list?",
    "production-name ::= alpha ( alnum | name-joiner alnum )*",
    "name-joiner ::= '-' | '+'",
    "parameter-list ::= '(' s-space* parameter ( s-space* ',' s-space* parameter )* s-space* ')'",
    "parameter ::= in-flow | context-value | chomping-value | param-sum",
    "in-flow ::= 'in-flow(' s-space* param-variable s-space* ')'",
    "context-value ::= ( 'block-in' | 'block-out' | 'block-key' | 'flow-in' | 'flow-out'" ++
      " | 'flow-key' | 'annotation-in' ) [ lookahead ≠ name-char ]",
    "chomping-value ::= ( 'strip' | 'clip' | 'keep' ) [ lookahead ≠ name-char ]",
    "param-sum ::= param-term ( s-space* sum-operator s-space* param-term )*",
    "param-term ::= param-variable | decimal",
    "param-variable ::= ( 'n' | 'm' | 'c' | 't' ) [ lookahead ≠ alnum ]",
    "sum-operator ::= '+' | '-'",
    "decimal ::= '-'? digit+",
    "name-char ::= alnum | '-' | '+'",
    "alnum ::= alpha | digit",
    "alpha ::= ['a'-'z'] | ['A'-'Z']",
    "digit ::= ['0'-'9']",
    "hex-digit ::= digit | ['a'-'f'] | ['A'-'F']",
    "s-ignorable ::= ( s-space | b-break | comment )*",
    "s-space ::= x20 | x09",
    "b-break ::= x0A | x0D",
    "comment ::= line-comment | block-comment",
    "line-comment ::= '#' ( . - x0A - x0D )*",
    "block-comment ::= '/*' ( [ lookahead ≠ '*/' ] . )* '*/'" ]

/-- The dialect written in itself. -/
def text : String :=
  String.join (lines.map (· ++ "\n"))

/-- One character by its code point. -/
def point (code : UInt32) : Node := .chars (.single code)

/-- One character of a range. -/
def range (first last : Char) : Node := .chars (.ofRanges [⟨first.val, last.val⟩])

/-- One character apart from those listed. -/
def anyExcept (excluded : List Char) : Node :=
  .chars (CharSet.any.minus (.ofRanges (excluded.map fun char => .point char.val)))

/-- Any number of spaces and tabs. -/
def spaces : Node := .zeroOrMore (.call "s-space")

/-- The productions of the dialect. -/
def rules : List (String × Node) :=
  [ ("grammar", .sequence [.zeroOrMore (.call "production"), .call "s-ignorable", .endOfInput]),
    ("production",
      .sequence
        [ .call "s-ignorable", .optional (.call "section-number"), .call "production-name",
          .optional (.call "parameter-list"), .call "s-ignorable", .literal "::=",
          .call "alternation" ]),
    ("production-head",
      .sequence
        [ .optional (.call "section-number"), .call "production-name",
          .optional (.call "parameter-list"), .call "s-ignorable", .literal "::=" ]),
    ("section-number",
      .sequence [.literal "[", .call "decimal", .literal "]", .call "s-ignorable"]),
    ("alternation",
      .sequence
        [ .call "s-ignorable", .call "sequence",
          .zeroOrMore (.sequence
            [ .call "s-ignorable", .literal "|", .call "s-ignorable", .call "sequence" ]) ]),
    ("sequence",
      .sequence
        [ .call "difference",
          .zeroOrMore (.sequence
            [ .call "s-ignorable", .notAhead (.call "production-head"), .call "difference" ]) ]),
    ("difference",
      .sequence
        [ .call "quantified",
          .zeroOrMore (.sequence
            [ .call "s-ignorable", .literal "-", .call "s-ignorable", .call "quantified" ]) ]),
    ("quantified", .sequence [.call "atom", .optional (.call "quantifier")]),
    ("quantifier",
      .first
        [ .literal "?", .literal "*", .literal "+",
          .sequence [.literal "\x7b", spaces, .call "param-sum", spaces, .literal "\x7d"] ]),
    ("atom",
      .first
        [ .call "lookaround", .call "special", .call "group", .call "code-point-range",
          .call "hex-char", .call "quoted-string", .call "any-char", .call "reference" ]),
    ("lookaround",
      .sequence
        [ .literal "[", spaces,
          .first
            [ .call "lookahead-negative", .call "lookahead-positive",
              .call "lookbehind-positive" ],
          .call "alternation", .call "s-ignorable", .literal "]" ]),
    ("lookahead-positive", .sequence [.literal "lookahead", spaces, .literal "="]),
    ("lookahead-negative",
      .sequence [.literal "lookahead", spaces, .first [.literal "≠", .literal "!="]]),
    ("lookbehind-positive", .sequence [.literal "lookbehind", spaces, .literal "="]),
    ("special", .sequence [.literal "<", .oneOrMore (.call "name-char"), .literal ">"]),
    ("group", .sequence [.literal "(", .call "alternation", .call "s-ignorable", .literal ")"]),
    ("code-point-range",
      .sequence
        [ .literal "[", .call "range-bound", .literal "-", .call "range-bound", .literal "]" ]),
    ("range-bound", .first [.call "hex-char", .call "quoted-char"]),
    ("hex-char",
      .sequence [.literal "x", .oneOrMore (.call "hex-digit"), .notAhead (.call "alnum")]),
    ("quoted-string",
      .first
        [ .sequence [.literal "'", .oneOrMore (.call "single-quoted-char"), .literal "'"],
          .sequence [.literal "\"", .oneOrMore (.call "double-quoted-char"), .literal "\""] ]),
    ("quoted-char",
      .first
        [ .sequence [.literal "'", .call "single-quoted-char", .literal "'"],
          .sequence [.literal "\"", .call "double-quoted-char", .literal "\""] ]),
    ("single-quoted-char", anyExcept ['\'', '\n', '\r']),
    ("double-quoted-char", anyExcept ['"', '\n', '\r']),
    ("any-char", .literal "."),
    ("reference", .sequence [.call "production-name", .optional (.call "parameter-list")]),
    ("production-name",
      .sequence
        [ .call "alpha",
          .zeroOrMore (.first [.call "alnum", .sequence [.call "name-joiner", .call "alnum"]]) ]),
    ("name-joiner", .first [.literal "-", .literal "+"]),
    ("parameter-list",
      .sequence
        [ .literal "(", spaces, .call "parameter",
          .zeroOrMore (.sequence [spaces, .literal ",", spaces, .call "parameter"]), spaces,
          .literal ")" ]),
    ("parameter",
      .first
        [ .call "in-flow", .call "context-value", .call "chomping-value", .call "param-sum" ]),
    ("in-flow",
      .sequence [.literal "in-flow(", spaces, .call "param-variable", spaces, .literal ")"]),
    ("context-value",
      .sequence
        [ .first
            [ .literal "block-in", .literal "block-out", .literal "block-key",
              .literal "flow-in", .literal "flow-out", .literal "flow-key",
              .literal "annotation-in" ],
          .notAhead (.call "name-char") ]),
    ("chomping-value",
      .sequence
        [ .first [.literal "strip", .literal "clip", .literal "keep"],
          .notAhead (.call "name-char") ]),
    ("param-sum",
      .sequence
        [ .call "param-term",
          .zeroOrMore (.sequence [spaces, .call "sum-operator", spaces, .call "param-term"]) ]),
    ("param-term", .first [.call "param-variable", .call "decimal"]),
    ("param-variable",
      .sequence
        [ .first [.literal "n", .literal "m", .literal "c", .literal "t"],
          .notAhead (.call "alnum") ]),
    ("sum-operator", .first [.literal "+", .literal "-"]),
    ("decimal", .sequence [.optional (.literal "-"), .oneOrMore (.call "digit")]),
    ("name-char", .first [.call "alnum", .literal "-", .literal "+"]),
    ("alnum", .first [.call "alpha", .call "digit"]),
    ("alpha", .first [range 'a' 'z', range 'A' 'Z']),
    ("digit", range '0' '9'),
    ("hex-digit", .first [.call "digit", range 'a' 'f', range 'A' 'F']),
    ("s-ignorable", .zeroOrMore (.first [.call "s-space", .call "b-break", .call "comment"])),
    ("s-space", .first [point 0x20, point 0x09]),
    ("b-break", .first [point 0x0A, point 0x0D]),
    ("comment", .first [.call "line-comment", .call "block-comment"]),
    ("line-comment", .sequence [.literal "#", .zeroOrMore (anyExcept ['\n', '\r'])]),
    ("block-comment",
      .sequence
        [ .literal "/*", .zeroOrMore (.sequence [.notAhead (.literal "*/"), .chars .any]),
          .literal "*/" ]) ]

/-- The grammar of grammar texts. -/
def grammar : Grammar :=
  .ofList (rules.map fun (name, body) => (name, { body := body }))

end Dialect

end Bnf

end ParametricGrammar
