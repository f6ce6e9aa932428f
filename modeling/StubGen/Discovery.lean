import StubGen.Disk
import StubGen.Parsed

/-!
# Discovery of sources

The sources of a project are the C# files below its directory, sorted by the steps of
their paths. Build directories are passed over, and so are the output directory and
directories so deep that their paths are too long.
-/

namespace StubGen

namespace Discovery

/-- The names of directories below a project that hold no sources of its own. -/
def skippedDirectories : List String := ["bin", "obj", ".git"]

/-- Whether a path is the one to leave out. -/
def isExcluded (exclude : Option Path) (p : Path) : Bool := exclude.any fun e => p.same e

/-- Whether a path is that of a C# file. -/
def isSource (p : Path) : Bool := p.extension? == some sourceExtension

/-- Whether the search goes into a directory of a name. -/
def entersDirectory (exclude : Option Path) (p : Path) (name : String) : Bool :=
  !skippedDirectories.contains name && !isExcluded exclude p && Disk.accepts p

/-- The sources among the entries of a directory and below them. -/
def sourcesBelow (exclude : Option Path) (p : Path) : Directory → List Path
  | .empty => []
  | .file name _ rest =>
    (if isSource (p.join ⟨name⟩) && !isExcluded exclude (p.join ⟨name⟩) then [p.join ⟨name⟩]
      else []) ++ sourcesBelow exclude p rest
  | .directory name entries rest =>
    (if entersDirectory exclude (p.join ⟨name⟩) name then
      sourcesBelow exclude (p.join ⟨name⟩) entries
      else []) ++ sourcesBelow exclude p rest

end Discovery

/-- The sources of a project, in order, or nothing if the path does not exist. A file stands
for itself, whatever its name. -/
def Disk.sources? (disk : Disk) (p : Path) (exclude : Option Path) : Option (List Path) :=
  if disk.isFile p then some [p]
  else
    (disk.entries? p).map fun entries =>
      if Discovery.isExcluded exclude p then []
      else (Discovery.sourcesBelow exclude p entries).mergeSort Path.le

end StubGen
