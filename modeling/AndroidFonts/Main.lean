/-
# `AndroidFonts.Main` — the command line

Reads the part of the file system that a request is about, runs the program on it, writes what has
changed, and prints.  Everything is decided by `AndroidFonts.Command.run`.
-/
import AndroidFonts.Disk

namespace AndroidFonts.Command

/-- Prints a text on its stream. -/
def Chunk.print : Chunk → IO Unit
  | .out text => do (← IO.getStdout).putStr text
  | .err text => do (← IO.getStderr).putStr text

end AndroidFonts.Command

open AndroidFonts in
/-- Runs the program. -/
def main (args : List String) : IO UInt32 := do
  let before ← Disk.readFor args
  let (report, after) := Command.run before args
  Disk.writeChanges before after
  report.transcript.forM Command.Chunk.print
  return UInt32.ofNat report.code
