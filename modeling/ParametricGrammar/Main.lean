import ParametricGrammar.Command.Run
/-!
# The command line

Reads files and the standard input for the commands, and prints what they end with.
-/

namespace ParametricGrammar

namespace Command

/-- Reads a stream to its end. -/
partial def readStream (stream : IO.FS.Stream) (before : ByteArray) : IO ByteArray := do
  let bytes ← stream.read 65536
  if bytes.isEmpty then return before else readStream stream (before ++ bytes)

/-- The text of bytes. -/
def decode (bytes : ByteArray) : Except ReadError String :=
  match String.fromUTF8? bytes with
  | some text => .ok text
  | none => .error .notText

/-- Reads a file, or the standard input. -/
def readPath (path : String) : IO (Except ReadError String) := do
  try
    let bytes ←
      if path = standardInput then readStream (← IO.getStdin) .empty else IO.FS.readBinFile path
    return decode bytes
  catch error =>
    match error with
    | .noFileOrDirectory _ _ _ => return .error .missing
    | .inappropriateType _ 21 _ => return .error .directory
    | .inappropriateType _ _ _ => return .error .notDirectory
    | error => return .error (.other (toString error))

/-- What is printed for arguments that make no request. -/
def usage : String :=
  "usage: check|dump|parse|trace [GRAMMAR] [SOURCE] [OPTIONS]\n" ++
    "  check  [-p FILE]... [--meta] [--strict] [--color WHEN]\n" ++
    "  dump   [-p FILE]... [--meta] [--format bnf|json] [--color WHEN]\n" ++
    "  parse  [-p FILE]... [--meta] [-s TEXT] [-r NAME] [--no-cache] [--recursion-limit N]\n" ++
    "         [--spans] [--params] [--json] [--color WHEN]\n" ++
    "  trace  [-p FILE]... [--meta] [-s TEXT] [-r NAME] [--no-cache] [--recursion-limit N]\n" ++
    "         [-v]... [--no-result] [--spans] [--params] [--color WHEN]\n"

end Command

end ParametricGrammar

open ParametricGrammar in
def main (arguments : List String) : IO UInt32 := do
  match Command.request? arguments with
  | none =>
      IO.eprint Command.usage
      return 2
  | some request =>
      let result ← Command.run Command.readPath request
      IO.print result.output
      IO.eprint result.errors
      return UInt32.ofNat result.code
