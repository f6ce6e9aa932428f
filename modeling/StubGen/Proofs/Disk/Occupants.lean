import Mathlib.Data.List.Infix
import StubGen.Disk

/-!
# What stands where on a disk

A directory as a value keeps its entries in some order, and the order changes when an entry is
replaced. What can be seen of it is what stands at the end of each chain of names: a file with
its content, a directory, or nothing. Putting a leaf at a place and taking a place out are
described by what they do to each chain of names.
-/

namespace StubGen

/-- What stands at a place, apart from what is below it. -/
inductive Occupant where
  | file (content : ByteArray)
  | directory

/-- Files are compared by the bytes of their contents. -/
instance : DecidableEq Occupant
  | .file a, .file b =>
    decidable_of_iff (a.data = b.data) (by rw [Occupant.file.injEq, ByteArray.ext_iff])
  | .file _, .directory => .isFalse (by simp)
  | .directory, .file _ => .isFalse (by simp)
  | .directory, .directory => .isTrue rfl

/-- What an entry is, apart from what is below it. -/
def DirectoryEntry.occupant : DirectoryEntry → Occupant
  | file content => .file content
  | directory _ => .directory

/-- What stands at the end of a chain of names that starts in an entry. -/
def DirectoryEntry.occupant? : DirectoryEntry → List String → Option Occupant
  | file content, rest => if rest = [] then some (.file content) else none
  | directory entries, rest => (entries.entryAt? rest).map (·.occupant)

/-- An entry with nothing below it. -/
def DirectoryEntry.IsLeaf (entry : DirectoryEntry) : Prop :=
  ∀ rest, entry.occupant? rest = if rest = [] then some entry.occupant else none

namespace Directory

variable {d : Directory}

/-- What stands at the end of a chain of names, apart from what is below it. -/
def occupant? (d : Directory) (names : List String) : Option Occupant :=
  (d.entryAt? names).map (·.occupant)

/-- The directory itself is a directory. -/
@[simp] theorem occupant?_nil (d : Directory) : d.occupant? [] = some .directory := rfl

/-- What stands below a directory that is an entry. -/
@[simp] theorem occupant?_entry (entries : Directory) (rest : List String) :
    (DirectoryEntry.directory entries).occupant? rest = entries.occupant? rest := rfl

/-- The first name leads to an entry and the others lead on from there. -/
theorem occupant?_cons (d : Directory) (name : String) (rest : List String) :
    d.occupant? (name :: rest) = (d.get? name).bind (·.occupant? rest) := by
  rw [occupant?, entryAt?]
  cases d.get? name with
  | none => rfl
  | some entry =>
    cases entry with
    | file content =>
      simp only [Option.bind_some, DirectoryEntry.occupant?]
      split <;> rfl
    | directory entries => rfl

/-- A directory is what the program takes for one. -/
theorem isDirectoryAt_iff {names : List String} :
    d.isDirectoryAt names = true ↔ d.occupant? names = some .directory := by
  rw [isDirectoryAt, occupant?]
  cases d.entryAt? names with
  | none => simp
  | some entry => cases entry <;> simp [DirectoryEntry.occupant]

/-- Nothing stands where no entry is. -/
theorem occupant?_eq_none_iff {names : List String} :
    d.occupant? names = none ↔ d.entryAt? names = none := Option.map_eq_none_iff

/-- From a directory, names lead on as they do from its entries. -/
theorem entryAt?_append {names : List String} {entries : Directory}
    (h : d.entryAt? names = some (.directory entries)) (rest : List String) :
    d.entryAt? (names ++ rest) = entries.entryAt? rest := by
  induction names generalizing d with
  | nil =>
    obtain rfl := DirectoryEntry.directory.inj (Option.some.inj h)
    rfl
  | cons name names ih =>
    rw [entryAt?] at h
    rw [List.cons_append, entryAt?]
    split at h
    · contradiction
    · split at h <;> simp at h
    · exact ih h

/-- A chain of names that leads to a file. -/
def HasFile (d : Directory) (names : List String) : Prop :=
  ∃ content, d.occupant? names = some (.file content)

/-- A file is an entry with the same content. -/
theorem occupant?_eq_file_iff {names : List String} {content : ByteArray} :
    d.occupant? names = some (.file content) ↔ d.entryAt? names = some (.file content) := by
  rw [occupant?]
  cases d.entryAt? names with
  | none => simp
  | some entry => cases entry <;> simp [DirectoryEntry.occupant]

/-- No names lead to no file. -/
theorem not_hasFile_nil (d : Directory) : ¬ d.HasFile [] := fun ⟨_, hfile⟩ => by
  simp at hfile

/-- Nothing stands below a name that is not there. -/
theorem not_hasFile_of_get? {name : String} (h : d.get? name = none) (rest : List String) :
    ¬ d.HasFile (name :: rest) := by
  rintro ⟨content, hfile⟩
  simp [occupant?_cons, h] at hfile

/-- A file under a name that is not among the other entries. -/
theorem hasFile_file_iff {name other : String} {content : ByteArray} {more : List String}
    (h : d.get? name = none) :
    (file name content d).HasFile (other :: more) ↔
      (name = other ∧ more = []) ∨ d.HasFile (other :: more) := by
  by_cases hname : name = other
  · have hrest := not_hasFile_of_get? (hname ▸ h) more
    rw [or_iff_left hrest]
    cases more <;>
      simp [HasFile, occupant?_cons, get?, hname, DirectoryEntry.occupant?]
  · simp [HasFile, occupant?_cons, get?, hname]

/-- Files below a name that is not among the other entries. -/
theorem hasFile_directory_iff {name other : String} {entries : Directory} {more : List String}
    (h : d.get? name = none) :
    (directory name entries d).HasFile (other :: more) ↔
      (name = other ∧ entries.HasFile more) ∨ d.HasFile (other :: more) := by
  by_cases hname : name = other
  · have hrest := not_hasFile_of_get? (hname ▸ h) more
    rw [or_iff_left hrest]
    simp [HasFile, occupant?_cons, get?, hname]
  · simp [HasFile, occupant?_cons, get?, hname]

/-- What leads on to something is a directory. -/
theorem occupant?_eq_directory_of_append {names rest : List String} (hrest : rest ≠ [])
    (h : d.occupant? (names ++ rest) ≠ none) : d.occupant? names = some .directory := by
  induction names generalizing d with
  | nil => rfl
  | cons name names ih =>
    rw [List.cons_append, occupant?_cons] at h
    rw [occupant?_cons]
    cases hentry : d.get? name with
    | none => simp [hentry] at h
    | some entry =>
      rw [hentry, Option.bind_some] at h
      cases entry with
      | file content => simp [DirectoryEntry.occupant?, hrest] at h
      | directory entries => exact ih h

/-- Something stands wherever something stands further on. -/
theorem occupant?_ne_none_of_append {names rest : List String}
    (h : d.occupant? (names ++ rest) ≠ none) : d.occupant? names ≠ none := by
  rcases eq_or_ne rest [] with rfl | hrest
  · rwa [List.append_nil] at h
  · simp [occupant?_eq_directory_of_append hrest h]

/-- What stands above a directory is a directory. -/
theorem occupant?_dropLast {names : List String} (h : d.occupant? names = some .directory) :
    d.occupant? names.dropLast = some .directory := by
  rcases List.eq_nil_or_concat' names with rfl | ⟨above, name, rfl⟩
  · exact h
  · rw [List.dropLast_concat]
    exact occupant?_eq_directory_of_append (List.cons_ne_nil name []) (by simp [h])

/-- What is below a name that was set. -/
theorem occupant?_set (d : Directory) (name : String) (entry : DirectoryEntry) (other : String)
    (rest : List String) :
    (d.set name entry).occupant? (other :: rest) =
      if other = name then entry.occupant? rest else d.occupant? (other :: rest) := by
  rw [occupant?_cons]
  by_cases h : other = name
  · rw [if_pos h, h, get?_set_self]
    rfl
  · rw [if_neg h, get?_set_of_ne d entry h, occupant?_cons]

/-- What is below a name that was taken out. -/
theorem occupant?_erase (d : Directory) (name other : String) (rest : List String) :
    (d.erase name).occupant? (other :: rest) =
      if other = name then none else d.occupant? (other :: rest) := by
  rw [occupant?_cons]
  by_cases h : other = name
  · rw [if_pos h, h, get?_erase_self]
    rfl
  · rw [if_neg h, get?_erase_of_ne d h, occupant?_cons]

/-- An empty directory is a leaf. -/
theorem isLeaf_empty : (DirectoryEntry.directory .empty).IsLeaf := by
  intro rest
  cases rest with
  | nil => rfl
  | cons name rest => rfl

/-- A file is a leaf. -/
theorem isLeaf_file (content : ByteArray) : (DirectoryEntry.file content).IsLeaf := fun _ => rfl

/-- Where no directory is, nothing stands further on. -/
theorem occupant?_append_of_ne_directory {names rest : List String} (hrest : rest ≠ [])
    (h : d.occupant? names ≠ some .directory) : d.occupant? (names ++ rest) = none := by
  by_contra hsome
  exact h (occupant?_eq_directory_of_append hrest hsome)

/-- A leaf can be put where no directory is. It then stands there if the place is in a
directory, and nothing else changes. -/
theorem occupant?_setAt {leaf : DirectoryEntry} (hleaf : leaf.IsLeaf) {parent : List String}
    {name : String} (hfree : d.occupant? (parent ++ [name]) ≠ some .directory)
    (place : List String) :
    (d.setAt leaf (parent ++ [name])).occupant? place =
      if place = parent ++ [name] ∧ d.occupant? parent = some .directory then some leaf.occupant
      else d.occupant? place := by
  induction parent generalizing d place with
  | nil =>
    cases place with
    | nil => simp
    | cons other rest =>
      rw [List.nil_append, setAt, occupant?_set]
      by_cases hname : other = name
      · rw [if_pos hname, hleaf, hname]
        by_cases hrest : rest = []
        · simp [hrest]
        · have hnone := occupant?_append_of_ne_directory hrest hfree
          simpa [hrest] using hnone.symm
      · simp [hname]
  | cons first parent ih =>
    obtain ⟨next, more, hmore⟩ : ∃ next more, parent ++ [name] = next :: more := by
      cases parent <;> simp
    rw [List.cons_append, occupant?_cons] at hfree
    rw [List.cons_append, hmore, setAt, occupant?_cons d first parent]
    cases hentry : d.get? first with
    | none => simp
    | some entry =>
      cases entry with
      | file content => cases parent <;> simp [DirectoryEntry.occupant?]
      | directory entries =>
        rw [hentry, Option.bind_some] at hfree
        cases place with
        | nil => simp
        | cons other rest =>
          simp only [occupant?_set]
          by_cases hname : other = first
          · rw [if_pos hname, hname, occupant?_cons, hentry, ← hmore]
            simpa using ih hfree rest
          · simp [hname]

/-- Taking out a place takes out what is below it, and nothing else changes. -/
theorem occupant?_eraseAt {names : List String} (h : names ≠ []) (place : List String) :
    (d.eraseAt names).occupant? place = if names <+: place then none else d.occupant? place := by
  induction names generalizing d place with
  | nil => contradiction
  | cons first names ih =>
    cases place with
    | nil => simp
    | cons other rest =>
      simp only [List.cons_prefix_cons]
      cases names with
      | nil => simp [eraseAt, occupant?_erase, eq_comm]
      | cons next more =>
        rw [eraseAt]
        cases hentry : d.get? first with
        | none =>
          by_cases hname : first = other
          · simp [occupant?_cons, ← hname, hentry]
          · simp [hname]
        | some entry =>
          cases entry with
          | file content =>
            by_cases hname : first = other
            · cases rest <;> simp [occupant?_cons, ← hname, hentry, DirectoryEntry.occupant?]
            · simp [hname]
          | directory entries =>
            by_cases hname : first = other
            · have hbelow := ih (d := entries) (List.cons_ne_nil next more) rest
              simpa [occupant?_set, occupant?_cons d, ← hname, hentry] using hbelow
            · simp [occupant?_set, hname, Ne.symm hname]

end Directory

end StubGen
