import StubGen.Disk
import StubGen.Generator
import StubGen.Toml.Document

/-!
# Configuration

A project may hold a configuration file. It names the output directory and the generators
that run; what it leaves out keeps its default, and what it does not know is refused.
-/

namespace StubGen

/-- The configuration of a project. -/
structure Config where
  /-- The output directory, relative to the project directory. -/
  outputDirectory : Path := ⟨"Generated"⟩
  /-- Whether greeting stubs are completed. -/
  completesStub : Bool := true
  /-- Whether annotated methods are completed. -/
  completesAnnotated : Bool := true
deriving DecidableEq, Repr, Inhabited

/-- A single generator chosen by its user. -/
inductive GeneratorChoice where
  | stub
  | annotated
deriving DecidableEq, Repr, Inhabited

namespace GeneratorChoice

/-- Every choice. -/
def all : List GeneratorChoice := [stub, annotated]

/-- The chosen generator. -/
def generator : GeneratorChoice → Generator
  | stub => Generator.stub
  | annotated => Generator.annotated

/-- The name of the choice. -/
def name (choice : GeneratorChoice) : String := choice.generator.name

/-- The choice of a name. -/
def ofName? (name : String) : Option GeneratorChoice := all.find? (·.name == name)

end GeneratorChoice

/-- Why a configuration cannot be had. -/
inductive ConfigError where
  /-- The file cannot be read, or is not valid UTF-8. -/
  | unreadable (path : Path)
  /-- The file is not a configuration. -/
  | malformed (path : Path)
deriving DecidableEq, Repr, Inhabited

namespace ConfigError

/-- The message. -/
def message : ConfigError → String
  | unreadable path => "Failed to read config file: " ++ path.text
  | malformed path => "Failed to parse config file: " ++ path.text

end ConfigError

namespace Config

/-- The name of the configuration file in a project directory. -/
def fileName : Path := ⟨"scribe.toml"⟩

/-- Whether nothing differs from the default. The output directory may be written in
another way. -/
def isDefault (c : Config) : Bool :=
  c.outputDirectory.same ({} : Config).outputDirectory && c.completesStub &&
    c.completesAnnotated

/-- Reads a setting that is a text. -/
def text? : Toml.Value → Option String
  | .text content => some content
  | _ => none

/-- Reads a setting that is switched on or off. -/
def flag? : Toml.Value → Option Bool
  | .flag content => some content
  | _ => none

/-- Reads the settings of a group. They are given by name, or without names in a fixed
order; in that case further values are ignored. -/
def group? (settings : List (String × (Config → Toml.Value → Option Config))) (c : Config) :
    Toml.Value → Option Config
  | .table _ entries =>
    entries.foldlM (fun c entry =>
      (settings.find? (·.1 == entry.1)).bind fun setting => setting.2 c entry.2) c
  | .array items =>
    (settings.zip items).foldlM (fun c (setting, item) => setting.2 c item) c
  | _ => none

/-- The settings of the output. -/
def outputSettings : List (String × (Config → Toml.Value → Option Config)) :=
  [("dir", fun c v => (text? v).map fun dir => { c with outputDirectory := ⟨dir⟩ })]

/-- The settings that switch generators on and off. -/
def generatorSettings : List (String × (Config → Toml.Value → Option Config)) :=
  [("partial-method", fun c v => (flag? v).map fun on => { c with completesStub := on }),
    ("attribute", fun c v => (flag? v).map fun on => { c with completesAnnotated := on })]

/-- The groups of settings. -/
def groups : List (String × (Config → Toml.Value → Option Config)) :=
  [("output", group? outputSettings), ("generators", group? generatorSettings)]

/-- The configuration that a text writes. -/
def ofText? (source : String) : Option Config :=
  (Toml.ofText? source).bind fun entries => group? groups {} (.table .header entries)

/-- The configuration in a file. -/
def ofFile (disk : Disk) (p : Path) : Except ConfigError Config :=
  match disk.text? p with
  | none => .error (.unreadable p)
  | some source =>
    match ofText? source with
    | none => .error (.malformed p)
    | some c => .ok c

/-- The configuration of a project directory, the default one if there is no configuration
file in it. -/
def ofProject (disk : Disk) (directory : Path) : Except ConfigError Config :=
  if disk.isFile (directory.join fileName) then ofFile disk (directory.join fileName)
  else .ok {}

/-- The generators that run. A choice goes before what the configuration says. -/
def generators (c : Config) (only : Option GeneratorChoice) : List Generator :=
  match only with
  | some choice => [choice.generator]
  | none =>
    (if c.completesStub then [Generator.stub] else []) ++
      (if c.completesAnnotated then [Generator.annotated] else [])

end Config

end StubGen
