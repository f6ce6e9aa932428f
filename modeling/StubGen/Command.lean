import StubGen.Config
import StubGen.Discovery
import StubGen.Host
import StubGen.Manifest

/-!
# Commands

A command works on a disk and prints texts. It may fail at any point; what it has done
before stays done.
-/

namespace StubGen

/-- What a command works on. -/
structure World where
  disk : Disk
  /-- What was printed so far. -/
  output : String := ""
  /-- What was printed so far for the attention of the user. -/
  notices : String := ""
deriving DecidableEq, Inhabited

/-- Why a command failed. -/
inductive CommandError where
  | config (error : ConfigError)
  | source (error : RegistryError)
  /-- The project does not exist. -/
  | noSuchPath (path : Path)
  /-- The project has no sources. -/
  | noSources (path : Path)
  /-- The output directory cannot be made. -/
  | outputDirectory (path : Path)
  /-- What stands in the place of a generator's directory cannot be cleared away. -/
  | clear (path : Path)
  /-- The directory of a generator cannot be made. -/
  | create (path : Path)
  /-- A file cannot be written. -/
  | write (path : Path)
  | generatorsFailed (count : Nat)
  | checkFailed (errors : Nat)
deriving DecidableEq, Repr, Inhabited

namespace CommandError

/-- The message. -/
def message : CommandError → String
  | config error => error.message
  | source error => error.message
  | noSuchPath path => "No such file or directory: " ++ path.text
  | noSources path => "No source files found in " ++ path.text
  | outputDirectory path => "Failed to create output directory: " ++ path.text
  | clear path => "Failed to clear " ++ path.text
  | create path => "Failed to create " ++ path.text
  | write path => "Failed to write " ++ path.text
  | generatorsFailed count => toString count ++ " generators failed"
  | checkFailed errors => "Check failed with " ++ toString errors ++ " errors"

end CommandError

/-- An action on the world that may fail. -/
abbrev Command := EStateM CommandError World

namespace Command

/-- Prints a line. -/
def print (line : String) : Command Unit :=
  modify fun w => { w with output := w.output ++ line ++ "\n" }

/-- Prints a line for the attention of the user. -/
def notify (line : String) : Command Unit :=
  modify fun w => { w with notices := w.notices ++ line ++ "\n" }

/-- The value, or the failure that goes with its absence. -/
def require {α : Type} (failure : CommandError) : Option α → Command α
  | some a => pure a
  | none => throw failure

/-- Puts the changed disk in place, or fails and leaves the disk as it was. -/
def changeDisk (failure : CommandError) (change : Disk → Option Disk) : Command Unit := do
  let disk ← require failure (change (← get).disk)
  modify fun w => { w with disk }

/-- Makes a directory and those above it. What could be made stays. -/
def makeDirectories (failure : CommandError) (p : Path) : Command Unit := do
  let (disk, made) := (← get).disk.makeDirectories p
  modify fun w => { w with disk }
  if made then pure () else throw failure

/-- The directory of a project that is given by its directory or by one of its files. -/
def projectDirectory (disk : Disk) (p : Path) : Path :=
  if disk.isFile p then p.directory else p

/-- The configuration in the given file, or else that of the project directory. -/
def loadConfig (directory : Path) (explicit : Option Path) : Command Config := do
  let disk := (← get).disk
  let outcome :=
    match explicit with
    | some p => Config.ofFile disk p
    | none => Config.ofProject disk directory
  match outcome with
  | .ok c => pure c
  | .error e => throw (.config e)

/-- The registry of the files under the given paths, or the first error. -/
def loadAll (disk : Disk) (r : Registry) : List Path → Except RegistryError Registry
  | [] => .ok r
  | p :: rest =>
    match r.loadPath disk p with
    | (r', .ok _) => loadAll disk r' rest
    | (_, .error e) => .error e

/-- The registry of all sources of a project, which has to have some. -/
def loadSources (p : Path) (exclude : Option Path) : Command Registry := do
  let disk := (← get).disk
  let paths ← require (.noSuchPath p) (disk.sources? p exclude)
  match loadAll disk .empty paths with
  | .error e => throw (.source e)
  | .ok r => if r.isEmpty then throw (.noSources p) else pure r

/-- Shows every syntax error to the user. -/
def showSyntaxErrors (files : List FileErrors) : Command Unit :=
  files.forM fun f => f.errors.forM fun e =>
    notify ("  × " ++ e.message ++
      match e.source? with
      | some source => " (" ++ source.name ++ ")"
      | none => "")

end Command

end StubGen
