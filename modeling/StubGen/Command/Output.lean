import StubGen.Command

/-!
# Writing generated files

Every generator has a directory of its own in the output directory. It is cleared before
anything is written into it, so files of earlier runs do not linger, and it does not exist
if the generator yields nothing. The manifest is written last.
-/

namespace StubGen.Command

/-- The entry of a fragment in the manifest. -/
def entryOf (generator : String) (f : Fragment) : ManifestEntry where
  generator := generator
  hintName := f.hintName
  path := Path.join ⟨generator⟩ ⟨f.hintName⟩
  bytes := f.sourceText.utf8ByteSize

/-- Clears away what stands in the place of a generator's directory. -/
def clearDirectory (directory : Path) : Command Unit := do
  if (← get).disk.holds directory then
    changeDisk (.clear directory) fun disk => disk.removeDirectory? directory
  else pure ()

/-- Writes a text to a file. -/
def writeText (p : Path) (text : String) : Command Unit :=
  changeDisk (.write p) fun disk => disk.writeText? p text

/-- Writes the fragments of one generator. -/
def writeResult (out : Path) (r : GeneratorResult) : Command (List ManifestEntry) := do
  let directory := out.join ⟨r.generator⟩
  clearDirectory directory
  if r.sources.isEmpty then pure []
  else do
    makeDirectories (.create directory) directory
    r.sources.forM fun f => writeText (directory.join ⟨f.hintName⟩) f.sourceText
    pure (r.sources.map (entryOf r.generator))

/-- Writes the fragments of all generators in order. -/
def writeResults (out : Path) : List GeneratorResult → Command (List ManifestEntry)
  | [] => pure []
  | r :: rest => do
    let entries ← writeResult out r
    let others ← writeResults out rest
    pure (entries ++ others)

/-- Writes what a run yielded, and the manifest. -/
def writeOutputs (out : Path) (result : RunResult) : Command Manifest := do
  makeDirectories (.outputDirectory out) out
  let manifest : Manifest := { files := ← writeResults out result.results }
  writeText (out.join Manifest.fileName) manifest.render
  pure manifest

end StubGen.Command
