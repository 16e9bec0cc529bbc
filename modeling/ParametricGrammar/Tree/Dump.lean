import ParametricGrammar.Palette
import ParametricGrammar.Tree
/-!
# Tree dumps

A dump shows each node of a tree on a line of its own, in preorder and indented by depth. Leaves
show the text that they cover, escaped so that a dump is readable whatever the source holds.
-/

namespace ParametricGrammar

/-- Whether a character is a control character. -/
def isControl (char : Char) : Bool :=
  char.toNat < 0x20 || (0x7f ≤ char.toNat && char.toNat ≤ 0x9f)

/-- A character as it stands in quoted output. -/
def escapeChar (char : Char) : String :=
  if char = '\n' then "\\n"
  else if char = '\r' then "\\r"
  else if char = '\t' then "\\t"
  else if char = '\\' then "\\\\"
  else if char = '"' then "\\\""
  else if isControl char then "\\u" ++ braced (Numeral.lowerHex 4 char.toNat)
  else String.singleton char

/-- A text as it stands in quoted output. -/
def escapeText (text : List Char) : String :=
  String.join (text.map escapeChar)

/-- What a dump shows besides names and leaf text. -/
structure DumpOptions where
  /-- Show byte ranges. -/
  spans : Bool := false
  /-- Show bound parameters. -/
  parameters : Bool := false
  /-- The colours to use. -/
  palette : Palette := .plain

namespace Tree

/-- The indentation of a depth. -/
def indentation (depth : Nat) : String :=
  String.join (List.replicate depth "  ")

/-- The line of a node without indentation and closing parentheses. -/
def label (options : DumpOptions) (source : List Char) (tree : Tree) : String :=
  let palette := options.palette
  let parameters :=
    if options.parameters && !tree.parameters.isEmpty then
      palette.muted ++ tree.parameters.text ++ palette.reset
    else ""
  let leaf :=
    if tree.content.isEmpty then
      " " ++ palette.matched ++ "\"" ++
        escapeText ((slice? source tree.start tree.stop).getD []) ++ "\"" ++ palette.reset
    else ""
  let span :=
    if options.spans then
      " " ++ palette.muted ++ "[" ++ Numeral.decimal tree.start ++ ".." ++
        Numeral.decimal tree.stop ++ "]" ++ palette.reset
    else ""
  "(" ++ palette.production ++ tree.name ++ palette.reset ++ parameters ++ leaf ++ span

mutual

/-- A tree at a depth, without a final line break. -/
def dumpFrom (options : DumpOptions) (source : List Char) (depth : Nat) : Tree → String
  | ⟨name, parameters, content, start, stop⟩ =>
      indentation depth ++ label options source ⟨name, parameters, content, start, stop⟩ ++
        dumpAll options source (depth + 1) content ++ ")"

/-- Trees at a depth, each on a new line. -/
def dumpAll (options : DumpOptions) (source : List Char) (depth : Nat) : List Tree → String
  | [] => ""
  | tree :: rest => "\n" ++ dumpFrom options source depth tree ++ dumpAll options source depth rest

end

/-- The dump of a tree against the text that it was parsed from. -/
def dump (options : DumpOptions) (source : List Char) (tree : Tree) : String :=
  dumpFrom options source 0 tree ++ "\n"

end Tree

end ParametricGrammar
