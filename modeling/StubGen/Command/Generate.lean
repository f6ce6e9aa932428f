import StubGen.Command.Output

/-!
# The command that generates

Reads the configuration and all sources of a project before anything is written. Syntax
errors are shown and do not stop the generators.
-/

namespace StubGen

/-- What is to be generated. -/
structure GenerateOptions where
  /-- The directory of the project, or a single source file. -/
  path : Path
  /-- The output directory, in place of the configured one. -/
  out : Option Path := none
  /-- The configuration file, in place of the one in the project. -/
  config : Option Path := none
  /-- The only generator to run. -/
  only : Option GeneratorChoice := none
deriving DecidableEq, Repr, Inhabited

/-- What was generated. -/
structure GenerateSummary where
  /-- The output directory. -/
  out : Path
  manifest : Manifest
  /-- The number of syntax errors. -/
  syntaxErrors : Nat
deriving DecidableEq, Repr, Inhabited

namespace Command

/-- Shows the generators that failed, and fails if there are any. -/
def failOn (failures : List (String × GeneratorError)) : Command Unit := do
  failures.forM fun failure => notify ("    ✗ " ++ failure.1 ++ ": " ++ failure.2.message)
  if failures.isEmpty then pure () else throw (.generatorsFailed failures.length)

/-- Runs the generators over a project and writes what they yield. -/
def generate (parser : Parser) (digest : Digest) (o : GenerateOptions) :
    Command GenerateSummary := do
  let directory := projectDirectory (← get).disk o.path
  let config ← loadConfig directory o.config
  let out := o.out.getD (directory.join config.outputDirectory)
  print ("Generating sources in " ++ o.path.text)
  let registry ← loadSources o.path (some out)
  print ("  Found: " ++ toString registry.size ++ " source files")
  let result := ((Host.ofGenerators (config.generators o.only)).run parser digest registry).2
  showSyntaxErrors result.syntaxErrors
  if result.errorCount > 0 then
    notify ("Warning: " ++ toString result.errorCount ++
      " syntax errors, generating from the recovered trees")
  let manifest ← writeOutputs out result
  manifest.files.forM fun entry => print ("    ✓ " ++ entry.path.text)
  failOn result.failures
  print ("\n  Finished " ++ toString manifest.files.length ++ " files into " ++ out.text)
  pure { out, manifest, syntaxErrors := result.errorCount }

end Command

end StubGen
