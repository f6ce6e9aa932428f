import StubGen.Generator
import StubGen.Parsed
import StubGen.Registry

/-!
# Hosts

A host runs generators over the files of a registry. It keeps what it parsed and what the
generators yielded, and uses it again as long as the digests of the texts are unchanged.

Nothing is assumed about digests: two texts with one digest are taken for the same text.
-/

namespace StubGen

/-- A way to tell texts and lists of files apart by numbers. -/
structure Digest where
  text : String → UInt64
  /-- The number for a count of trees and a list of files with the numbers of their texts. -/
  listing : Nat → List (FileId × UInt64) → UInt64

namespace Digest

/-- Mixes the numbers of all parts. -/
def standard : Digest where
  text := fun s => hash s
  listing := fun trees files =>
    files.foldl (fun h f => mixHash (mixHash h (hash f.1.index)) f.2) (hash trees)

end Digest

/-- What one generator yielded in one run. -/
structure GeneratorResult where
  generator : String
  /-- The fragments in the order in which they were added, none if the generator failed. -/
  sources : List Fragment
  error : Option GeneratorError
  /-- Whether the result was carried over from the run before. -/
  reused : Bool
deriving DecidableEq, Repr, Inhabited

/-- The syntax errors of one file. -/
structure FileErrors where
  file : FileId
  errors : List SyntaxError
deriving DecidableEq, Repr, Inhabited

/-- The number of errors of some files. -/
def FileErrors.count (files : List FileErrors) : Nat := (files.flatMap (·.errors)).length

/-- What one run yielded. -/
structure RunResult where
  /-- One result for each generator, in their order. -/
  results : List GeneratorResult
  /-- The files with syntax errors, in file order. -/
  syntaxErrors : List FileErrors
deriving DecidableEq, Repr, Inhabited

namespace RunResult

/-- All fragments with their generators. -/
def sources (r : RunResult) : List (String × Fragment) :=
  r.results.flatMap fun result => result.sources.map (result.generator, ·)

/-- All failures with their generators. -/
def failures (r : RunResult) : List (String × GeneratorError) :=
  r.results.filterMap fun result => result.error.map (result.generator, ·)

/-- The first result of the generator of a name. -/
def result? (r : RunResult) (generator : String) : Option GeneratorResult :=
  r.results.find? (·.generator == generator)

/-- The number of syntax errors of all files. -/
def errorCount (r : RunResult) : Nat := FileErrors.count r.syntaxErrors

end RunResult

namespace Generator

/-- What the generator yields for a compilation, with nothing reserved. -/
def result (g : Generator) (c : Compilation) : GeneratorResult :=
  match Pass.run { generator := g.name } (g.program c) with
  | (pass, .ok ()) =>
    { generator := g.name, sources := pass.sources, error := none, reused := false }
  | (_, .error e) => { generator := g.name, sources := [], error := some e, reused := false }

end Generator

/-- A file with what parsing it yielded. -/
structure ParsedFile where
  file : FileId
  /-- The tree and the errors; these refer to the file by its path. -/
  parsed : Parsed

namespace ParsedFile

/-- Parses a registered file. -/
def ofSource (parser : Parser) (f : SourceFile) : ParsedFile :=
  let parsed := parser f.id f.text
  { file := f.id
    parsed := { parsed with errors := parsed.errors.map (·.withSource ⟨f.path.text, f.text⟩) } }

/-- The compilation of the trees of parsed files. -/
def compilation (files : List ParsedFile) : Compilation :=
  { trees := files.filterMap (·.parsed.tree) }

/-- The syntax errors of parsed files. -/
def syntaxErrors (files : List ParsedFile) : List FileErrors :=
  files.filterMap fun f =>
    if f.parsed.errors.isEmpty then none else some { file := f.file, errors := f.parsed.errors }

end ParsedFile

/-- What a host keeps of a file. -/
structure KnownFile extends ParsedFile where
  /-- The digest of the text that was parsed. -/
  digest : UInt64

/-- Generators together with what is kept from one run to the next. -/
structure Host where
  generators : List Generator
  /-- The files of the run before. -/
  known : List KnownFile := []
  /-- The digest of the run before, and what it yielded. -/
  previous : Option (UInt64 × List GeneratorResult) := none

namespace Host

/-- A host that has not run yet. -/
def ofGenerators (generators : List Generator) : Host := { generators := generators }

/-- The names of the generators, in order. -/
def generatorNames (h : Host) : List String := h.generators.map (·.name)

/-- What is known of a file: as before while the digest is the same, parsed anew otherwise. -/
def knownFile (parser : Parser) (digest : Digest) (known : List KnownFile) (f : SourceFile) :
    KnownFile :=
  match known.find? fun k => k.file == f.id && k.digest == digest.text f.text with
  | some k => k
  | none => { ParsedFile.ofSource parser f with digest := digest.text f.text }

/-- The digest of a run. -/
def fingerprint (digest : Digest) (c : Compilation) (files : List SourceFile) : UInt64 :=
  digest.listing c.trees.length (files.map fun f => (f.id, digest.text f.text))

/-- The results of the run before, if its digest is this one. -/
def carriedOver? (h : Host) (current : UInt64) : Option (List GeneratorResult) :=
  h.previous.bind fun (before, results) =>
    if before = current then some (results.map fun r => { r with reused := true }) else none

/-- Runs the generators over the files of a registry, each of them by an action. Files that are
gone are forgotten. -/
def runM {m : Type → Type} [Monad m] (execute : Generator → Compilation → m GeneratorResult)
    (h : Host) (parser : Parser) (digest : Digest) (r : Registry) : m (Host × RunResult) := do
  let known := r.files.map (knownFile parser digest h.known)
  let parsed := known.map (·.toParsedFile)
  let compilation := ParsedFile.compilation parsed
  let syntaxErrors := ParsedFile.syntaxErrors parsed
  let current := fingerprint digest compilation r.files
  match h.carriedOver? current with
  | some results => pure ({ h with known := known }, { results, syntaxErrors })
  | none => do
    let results ← h.generators.mapM fun g => execute g compilation
    pure ({ h with known := known, previous := some (current, results) },
      { results, syntaxErrors })

/-- Runs the generators over the files of a registry, where executing a generator does nothing
but yield its result. -/
def run (h : Host) (parser : Parser) (digest : Digest) (r : Registry) : Host × RunResult :=
  Id.run (h.runM (fun g c => pure (g.result c)) parser digest r)

end Host

end StubGen
