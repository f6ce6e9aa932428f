import StubGen.CommandLine
import StubGen.Concrete.Exchange
import StubGen.Disk.Change

/-!
# The program

Reads the working directory into a disk and the concrete trees of the sources from
standard input, runs the command line on them, and carries out the changes.
-/

namespace StubGen.Main

/-- Reads a directory with everything below it. -/
partial def readDirectory (place : String) : IO Directory := do
  let mut entries := Directory.empty
  for entry in ← (← IO.FS.realPath place).readDir do
    if ← entry.path.isDir then
      entries := entries.set entry.fileName (.directory (← readDirectory entry.path.toString))
    else
      entries := entries.set entry.fileName (.file (← IO.FS.readBinFile entry.path))
  pure entries

/-- Reads all lines of a stream. -/
partial def readLines (input : IO.FS.Stream) (lines : List String) : IO (List String) := do
  let line ← input.getLine
  if line.isEmpty then pure lines.reverse else readLines input (line :: lines)

/-- Carries out a change in a directory. -/
def carryOut (place : String) (change : DirectoryChange) : IO Unit :=
  let within := fun (names : List String) => Text.joined "/" (place :: names)
  match change with
  | .removeFile names => IO.FS.removeFile (within names)
  | .removeDirectory names => IO.FS.removeDir (within names)
  | .makeDirectory names => IO.FS.createDirAll (within names)
  | .writeFile names content => IO.FS.writeBinFile (within names) content

end StubGen.Main

open StubGen in
/-- Runs the program in the working directory. -/
def main (arguments : List String) : IO UInt32 := do
  let place := (← IO.currentDir).toString
  let names := (Text.splitAt '/' place).filter (· != "")
  let before ← Main.readDirectory place
  let parser := (Grammar.ofLines (← Main.readLines (← IO.getStdin) [])).parser
  let (world, code) := CommandLine.run parser .standard arguments
    { disk := Disk.ofWorking names before }
  let after := (world.disk.entries? ⟨"."⟩).getD before
  (before.changes after).forM (Main.carryOut place)
  IO.print world.output
  IO.eprint world.notices
  pure code
