/-!
# Directories

The contents of a directory as a value: a sequence of files and directories under their
names. The first entry of a name is the one that counts.
-/

namespace StubGen

/-- The entries of a directory. -/
inductive Directory where
  | empty
  | file (name : String) (content : ByteArray) (rest : Directory)
  | directory (name : String) (entries : Directory) (rest : Directory)
deriving DecidableEq, Inhabited

/-- What stands under a name. -/
inductive DirectoryEntry where
  | file (content : ByteArray)
  | directory (entries : Directory)
deriving Inhabited

namespace Directory

/-- What stands under a name. -/
def get? (name : String) : Directory → Option DirectoryEntry
  | empty => none
  | file other content rest => if other = name then some (.file content) else rest.get? name
  | directory other entries rest =>
    if other = name then some (.directory entries) else rest.get? name

/-- The directory without a name. -/
def erase (name : String) : Directory → Directory
  | empty => empty
  | file other content rest =>
    if other = name then rest.erase name else file other content (rest.erase name)
  | directory other entries rest =>
    if other = name then rest.erase name else directory other entries (rest.erase name)

/-- The directory with an entry under a name, in place of any that stood there. -/
def set (d : Directory) (name : String) : DirectoryEntry → Directory
  | .file content => file name content (d.erase name)
  | .directory entries => directory name entries (d.erase name)

/-- Nothing stands under a name that was taken out. -/
theorem get?_erase_self (d : Directory) (name : String) : (d.erase name).get? name = none := by
  induction d with
  | empty => rfl
  | file other content rest ih =>
    by_cases h : other = name
    · simpa only [erase, h, if_true] using ih
    · simpa only [erase, h, if_false, get?] using ih
  | directory other entries rest _ ih =>
    by_cases h : other = name
    · simpa only [erase, h, if_true] using ih
    · simpa only [erase, h, if_false, get?] using ih

/-- Taking a name out leaves the other names alone. -/
theorem get?_erase_of_ne (d : Directory) {name other : String} (h : other ≠ name) :
    (d.erase name).get? other = d.get? other := by
  induction d with
  | empty => rfl
  | file entry content rest ih =>
    by_cases hentry : entry = name
    · simpa only [erase, hentry, if_true, get?, if_neg h.symm] using ih
    · simp only [erase, hentry, if_false, get?, ih]
  | directory entry entries rest _ ih =>
    by_cases hentry : entry = name
    · simpa only [erase, hentry, if_true, get?, if_neg h.symm] using ih
    · simp only [erase, hentry, if_false, get?, ih]

/-- What was put under a name stands there. -/
@[simp] theorem get?_set_self (d : Directory) (name : String) (entry : DirectoryEntry) :
    (d.set name entry).get? name = some entry := by
  cases entry <;> simp only [set, get?, if_true]

/-- Putting an entry under a name leaves the other names alone. -/
theorem get?_set_of_ne (d : Directory) {name other : String} (entry : DirectoryEntry)
    (h : other ≠ name) : (d.set name entry).get? other = d.get? other := by
  cases entry <;> simp only [set, get?, if_neg h.symm, get?_erase_of_ne d h]

/-- What stands at the end of a chain of names. -/
def entryAt? (d : Directory) : List String → Option DirectoryEntry
  | [] => some (.directory d)
  | name :: rest =>
    match d.get? name with
    | none => none
    | some (.file content) => if rest = [] then some (.file content) else none
    | some (.directory entries) => entries.entryAt? rest

/-- The directory with an entry at the end of a chain of names. Nothing changes unless the
names before the last are directories. -/
def setAt (d : Directory) (entry : DirectoryEntry) : List String → Directory
  | [] => d
  | [name] => d.set name entry
  | name :: next :: rest =>
    match d.get? name with
    | some (.directory entries) => d.set name (.directory (entries.setAt entry (next :: rest)))
    | _ => d

/-- The directory without what stands at the end of a chain of names. -/
def eraseAt (d : Directory) : List String → Directory
  | [] => d
  | [name] => d.erase name
  | name :: next :: rest =>
    match d.get? name with
    | some (.directory entries) => d.set name (.directory (entries.eraseAt (next :: rest)))
    | _ => d

/-- Whether a directory stands at the end of a chain of names. -/
def isDirectoryAt (d : Directory) (names : List String) : Bool :=
  match d.entryAt? names with
  | some (.directory _) => true
  | _ => false

/-- The directory in which nothing but a chain of names leads to the given entries. -/
def under : List String → Directory → Directory
  | [], entries => entries
  | name :: rest, entries => directory name (under rest entries) empty

/-- All files with the chains of names that lead to them. -/
def files (above : List String) : Directory → List (List String × ByteArray)
  | empty => []
  | file name content rest => (above ++ [name], content) :: rest.files above
  | directory name entries rest => entries.files (above ++ [name]) ++ rest.files above

end Directory

end StubGen
