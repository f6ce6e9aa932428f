import StubGen.Disk.Directory

/-!
# Changes between directories

The steps that turn the contents of one directory into those of another: first what is
gone is removed, then new directories are made, then files are written.
-/

namespace StubGen

/-- A step that changes what stands at the end of a chain of names. -/
inductive DirectoryChange where
  | removeFile (names : List String)
  | removeDirectory (names : List String)
  | makeDirectory (names : List String)
  | writeFile (names : List String) (content : ByteArray)
deriving Inhabited

namespace Directory

/-- All directories below, each before the directories in it. -/
def directories (above : List String) : Directory → List (List String)
  | empty => []
  | file _ _ rest => rest.directories above
  | directory name entries rest =>
    (above ++ [name]) :: entries.directories (above ++ [name]) ++ rest.directories above

/-- The steps from one directory to another. -/
def changes (before after : Directory) : List DirectoryChange :=
  let oldFiles := before.files []
  let newFiles := after.files []
  let oldDirectories := before.directories []
  let newDirectories := after.directories []
  (oldFiles.filter fun f => !(newFiles.any (·.1 == f.1))).map (.removeFile ·.1) ++
    (oldDirectories.filter fun d => !newDirectories.contains d).reverse.map .removeDirectory ++
    (newDirectories.filter fun d => !oldDirectories.contains d).map .makeDirectory ++
    (newFiles.filter fun f => !oldFiles.contains f).map fun f => .writeFile f.1 f.2

end Directory

end StubGen
