import ParametricGrammar.Numeral
/-!
# Literals in grammar text

Quoted text holds neither line breaks nor its own quote. A literal is written as a row of pieces:
runs that one kind of quote can enclose, and line breaks by code point. The pieces of a text
concatenate to it.
-/

namespace ParametricGrammar

namespace Bnf

/-- A code point as `x` and at least two hexadecimal digits. -/
def codePointText (code : UInt32) : String :=
  "x" ++ Numeral.upperHex 2 code.toNat

/-- A piece of a literal. -/
inductive Piece where
  /-- A run that one kind of quote can enclose. -/
  | quoted (run : List Char)
  /-- A line break. -/
  | lineBreak (char : Char)

namespace Piece

/-- Whether a character breaks a line. -/
def breaksLine (char : Char) : Bool :=
  char = '\n' || char = '\r'

/-- The quote that a run holding the other one cannot take in. -/
def otherQuote? : Char → Option Char
  | '\'' => some '"'
  | '"' => some '\''
  | _ => none

/-- Whether a run has to end before a character, as it holds the other quote. -/
def endsRun (run : List Char) (char : Char) : Bool :=
  match otherQuote? char with
  | some quote => run.contains quote
  | none => false

/-- The piece of a run, unless the run is empty. -/
def ofRun (run : List Char) : List Piece :=
  if run.isEmpty then [] else [.quoted run]

/-- The pieces of a text after a run that is still open. -/
def split (run : List Char) : List Char → List Piece
  | [] => ofRun run
  | char :: rest =>
      if breaksLine char then ofRun run ++ .lineBreak char :: split [] rest
      else if endsRun run char then ofRun run ++ split [char] rest
      else split (run ++ [char]) rest

/-- The pieces of a text. -/
def ofText (text : String) : List Piece :=
  split [] text.toList

/-- The characters that a piece stands for. -/
def chars : Piece → List Char
  | quoted run => run
  | lineBreak char => [char]

/-- A piece in grammar text. -/
def text : Piece → String
  | quoted run =>
      if run.contains '\'' then "\"" ++ String.ofList run ++ "\""
      else "'" ++ String.ofList run ++ "'"
  | lineBreak char => codePointText char.val

end Piece

end Bnf

end ParametricGrammar
