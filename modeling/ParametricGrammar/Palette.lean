/-!
# Terminal colours

Escape sequences named for what they mark. The plain palette holds empty texts, so printers insert
the fields without asking whether colours are on.
-/

namespace ParametricGrammar

/-- The escape sequences that printers insert. -/
structure Palette where
  /-- Before production names. -/
  production : String
  /-- Before matched text. -/
  matched : String
  /-- Before failures. -/
  failed : String
  /-- Before ranges, parameters and remarks. -/
  muted : String
  /-- After any of them. -/
  reset : String

namespace Palette

/-- The palette without colours. -/
def plain : Palette := ⟨"", "", "", "", ""⟩

/-- Blue names, green matches, red failures and dim remarks. -/
def coloured : Palette := ⟨"\x1b[34m", "\x1b[32m", "\x1b[31m", "\x1b[2m", "\x1b[0m"⟩

/-- The palette for output with or without colours. -/
def choose (colours : Bool) : Palette :=
  if colours then coloured else plain

end Palette

end ParametricGrammar
