/-
SyntaxTree/Main.lean

The program: it fetches the text that the arguments ask for, prints what the command
line makes of it, and reports a failure on standard error.
-/
import SyntaxTree.CommandLine

namespace SyntaxTree.CommandLine

/-- Reads all of a stream. -/
partial def readAll (stream : IO.FS.Stream) (done : ByteArray) : IO ByteArray := do
  let chunk ← stream.read 65536
  if chunk.isEmpty then return done else readAll stream (done ++ chunk)

/-- The text of a source, if it can be read and is a text. -/
def fetch (source : Source) : IO (Option String) := do
  try
    let bytes ← match source with
      | .standardInput => readAll (← IO.getStdin) .empty
      | .file path => IO.FS.readBinFile path
    return String.fromUTF8? bytes
  catch _ => return none

/-- What is written on standard error. -/
def Ending.complaint (e : Ending) : String :=
  match e.failure with
  | some failure =>
    let cause := failure.cause?.elim "" fun text => "\nCaused by:\n    " ++ text ++ "\n"
    "Error: " ++ failure.message ++ "\n" ++ cause
  | none =>
    if e.code = 2 then usage
    else if e.code = 101 then "Formatting argument out of range\n"
    else ""

end SyntaxTree.CommandLine

/-- Runs the program. -/
def main (arguments : List String) : IO UInt32 := do
  let ending ← SyntaxTree.CommandLine.execute SyntaxTree.CommandLine.fetch arguments
  (← IO.getStdout).putStr ending.output
  (← IO.getStderr).putStr ending.complaint
  return ending.code.toUInt32
