import StubGen.Disk
import StubGen.Json.Reader
import StubGen.Json.Writer

/-!
# Manifests

The manifest of an output directory lists the generated files in it. It is written as
JSON and can be read back.
-/

namespace StubGen

/-- One generated file. -/
structure ManifestEntry where
  generator : String
  hintName : String
  /-- Where the file is, relative to the output directory. -/
  path : Path
  /-- The size of the text. -/
  bytes : Nat
deriving DecidableEq, Repr, Inhabited

/-- The generated files of an output directory, in the order of their generators. -/
structure Manifest where
  files : List ManifestEntry := []
deriving DecidableEq, Repr, Inhabited

/-- Why a manifest cannot be had. -/
inductive ManifestError where
  /-- The file cannot be read, or is not valid UTF-8. -/
  | unreadable (path : Path)
  /-- The file is not a manifest. -/
  | malformed (path : Path)
deriving DecidableEq, Repr, Inhabited

namespace ManifestError

/-- The message. -/
def message : ManifestError → String
  | unreadable path => "Failed to read manifest: " ++ path.text
  | malformed path => "Failed to parse manifest: " ++ path.text

end ManifestError

namespace ManifestEntry

/-- The entry as JSON. -/
def toJson (e : ManifestEntry) : Json :=
  .ofMembers [("generator", .ofString e.generator), ("hint_name", .ofString e.hintName),
    ("path", .ofString e.path.text), ("bytes", .ofNat e.bytes)]

end ManifestEntry

namespace Manifest

/-- The name of the manifest in an output directory. -/
def fileName : Path := ⟨"manifest.json"⟩

/-- The manifest as JSON. -/
def toJson (m : Manifest) : Json :=
  .ofMembers [("files", .array (m.files.map (·.toJson)))]

/-- The text of the manifest file. -/
def render (m : Manifest) : String := m.toJson.write

/-- The values of the members of the given names, in their order. Each has to be there
exactly once; members of other names are ignored. A list of values without names does as
well. -/
def fields? (names : List String) : Json → Option (List Json)
  | .object members =>
    if members.all (·.1.isSome) then
      names.mapM fun name =>
        match members.filter (·.1 == some name) with
        | [found] => some found.2
        | _ => none
    else none
  | .array items => if items.length = names.length then some items else none
  | _ => none

/-- The largest size that can be written. -/
def largestSize : Nat := 18446744073709551615

/-- Reads a size. -/
def size? (v : Json) : Option Nat := v.nat?.filter (· ≤ largestSize)

/-- Reads an entry. -/
def entry? (v : Json) : Option ManifestEntry := do
  match ← fields? ["generator", "hint_name", "path", "bytes"] v with
  | [generator, hintName, path, bytes] =>
    some
      { generator := ← generator.string?
        hintName := ← hintName.string?
        path := ⟨← path.string?⟩
        bytes := ← size? bytes }
  | _ => none

/-- Reads a manifest. -/
def ofJson? (v : Json) : Option Manifest := do
  match ← fields? ["files"] v with
  | [.array items] => some { files := ← items.mapM entry? }
  | _ => none

/-- The manifest that a text writes. -/
def ofText? (source : String) : Option Manifest := (Json.ofText? source).bind ofJson?

/-- The manifest in a file. -/
def ofFile (disk : Disk) (p : Path) : Except ManifestError Manifest :=
  match disk.text? p with
  | none => .error (.unreadable p)
  | some source =>
    match ofText? source with
    | none => .error (.malformed p)
    | some m => .ok m

end Manifest

end StubGen
