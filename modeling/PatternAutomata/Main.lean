import PatternAutomata.CommandLine.Outcome

/-!
# The program

Reads the arguments and, if they ask for it, the standard input, and writes the outcome.
-/

namespace PatternAutomata.CommandLine

/-- The bytes of a stream up to its end. -/
partial def readAll (stream : IO.FS.Stream) (bytes : ByteArray) : IO ByteArray := do
  let more ← stream.read 65536
  if more.isEmpty then return bytes else readAll stream (bytes ++ more)

end PatternAutomata.CommandLine

open PatternAutomata.CommandLine in
/-- Searches a text, or the lines of the standard input, for a pattern. -/
def main (args : List String) : IO UInt32 := do
  let input ← if readsInput args then readAll (← IO.getStdin) .empty else pure .empty
  let outcome := run args input.toList
  (← IO.getStdout).putStr outcome.output
  (← IO.getStderr).putStr outcome.errors
  return outcome.code.toUInt32
