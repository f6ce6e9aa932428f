import StubGen.Disk
import StubGen.Span

/-!
# Registries

A registry holds the source files that are compiled together, in the order in which they
were registered, and beside them a table that tells the number of every registered path. A
path is registered at most once, whichever way it is written, and a number is never given
out again. Each file counts how often its text has changed.

Numbers and revisions are natural numbers. A history of fewer than `2 ^ 32` operations keeps
all of them below `2 ^ 32`, so counting in 32 bits yields the same up to there.
-/

namespace StubGen

/-- A registered file. -/
structure SourceFile where
  id : FileId
  /-- The path as it was first written. -/
  path : Path
  text : String := ""
  /-- How often the text has changed, counted without a limit. A counter of 32 bits is the same
  for fewer than `2 ^ 32` changes. -/
  revision : Nat := 0
deriving DecidableEq, Repr, Inhabited

namespace SourceFile

/-- The file with a text. The revision moves only if the text is another one. -/
def withText (f : SourceFile) (text : String) : SourceFile :=
  if f.text = text then f else { f with text := text, revision := f.revision + 1 }

end SourceFile

/-- Why an operation on a registry failed. -/
inductive RegistryError where
  /-- No file of this number is registered. -/
  | fileNotFound (file : FileId)
  /-- The file cannot be read, or is not valid UTF-8. -/
  | unreadable (path : Path)
deriving DecidableEq, Repr, Inhabited

namespace RegistryError

/-- The message. -/
def message : RegistryError → String
  | fileNotFound file => "file not found: " ++ file.display
  | unreadable path => "failed to read " ++ path.text

end RegistryError

/-- The files that are compiled together. -/
structure Registry where
  /-- The files, in the order of their registration. -/
  files : List SourceFile := []
  /-- The registered paths with the numbers of their files. -/
  paths : List (Path × FileId) := []
  /-- The number that the next new file gets, counted without a limit. A counter of 32 bits is
  the same for fewer than `2 ^ 32` registrations. -/
  next : Nat := 0
deriving DecidableEq, Repr, Inhabited

namespace Registry

/-- The registry without files. -/
def empty : Registry := {}

/-- The number of files. -/
def size (r : Registry) : Nat := r.files.length

/-- Whether there are no files. -/
def isEmpty (r : Registry) : Bool := r.files.isEmpty

/-- The file of a number. -/
def get? (r : Registry) (id : FileId) : Option SourceFile := r.files.find? (·.id == id)

/-- The file of a number, or the error that there is none. -/
def file (r : Registry) (id : FileId) : Except RegistryError SourceFile :=
  match r.get? id with
  | some f => .ok f
  | none => .error (.fileNotFound id)

/-- The path of a file. -/
def path (r : Registry) (id : FileId) : Except RegistryError Path := (r.file id).map (·.path)

/-- The text of a file. -/
def text (r : Registry) (id : FileId) : Except RegistryError String := (r.file id).map (·.text)

/-- The number under which a path is registered. -/
def idOf? (r : Registry) (p : Path) : Option FileId :=
  (r.paths.find? fun entry => entry.1.same p).map (·.2)

/-- Registers a path with the empty text, unless it is registered already. -/
def register (r : Registry) (p : Path) : Registry × FileId :=
  match r.idOf? p with
  | some id => (r, id)
  | none =>
    let id : FileId := ⟨r.next⟩
    ({ files := r.files ++ [{ id := id, path := p }], paths := r.paths ++ [(p, id)],
       next := r.next + 1 }, id)

/-- Gives a text to the file of a number, if there is one. -/
def replaceText (r : Registry) (id : FileId) (text : String) : Registry :=
  { r with files := r.files.map fun f => if f.id = id then f.withText text else f }

/-- Registers a path and gives it a text. -/
def add (r : Registry) (p : Path) (text : String) : Registry × FileId :=
  match r.register p with
  | (r', id) => (r'.replaceText id text, id)

/-- Gives a text to a registered file. -/
def setText (r : Registry) (id : FileId) (text : String) :
    Registry × Except RegistryError Unit :=
  match r.file id with
  | .ok _ => (r.replaceText id text, .ok ())
  | .error e => (r, .error e)

/-- Gives a registered file the text that stands under its path on a disk. -/
def load (r : Registry) (disk : Disk) (id : FileId) : Registry × Except RegistryError Unit :=
  match r.path id with
  | .error e => (r, .error e)
  | .ok p =>
    match disk.text? p with
    | some text => r.setText id text
    | none => (r, .error (.unreadable p))

/-- Registers a path and loads it. The path stays registered if it cannot be read. -/
def loadPath (r : Registry) (disk : Disk) (p : Path) : Registry × Except RegistryError FileId :=
  match r.register p with
  | (r', id) =>
    match r'.load disk id with
    | (r'', .ok ()) => (r'', .ok id)
    | (r'', .error e) => (r'', .error e)

/-- Takes a file out, if it is there, and its path with it. -/
def remove (r : Registry) (id : FileId) : Registry × Option SourceFile :=
  match r.get? id with
  | none => (r, none)
  | some f =>
    ({ r with
        files := r.files.filter (·.id != id)
        paths := r.paths.filter fun entry => !entry.1.same f.path }, some f)

end Registry

end StubGen
