import StubGen.Proofs.Disk.Names
import StubGen.Proofs.Disk.Operations

/-!
# Names that stand once

A directory as a value may hold several entries of one name, of which the first counts. On a
disk every name stands once in its directory, and the operations that generate files leave it
at that.
-/

namespace StubGen

namespace Directory

/-- A directory in which and below which every name stands once. -/
def Distinct : Directory → Prop
  | empty => True
  | file name _ rest => rest.get? name = none ∧ rest.Distinct
  | directory name entries rest => rest.get? name = none ∧ entries.Distinct ∧ rest.Distinct

/-- Whether every name stands once. -/
def decideDistinct : (d : Directory) → Decidable d.Distinct
  | empty => .isTrue trivial
  | file name _ rest =>
    have := decideDistinct rest
    inferInstanceAs (Decidable (rest.get? name = none ∧ rest.Distinct))
  | directory name entries rest =>
    have := decideDistinct entries
    have := decideDistinct rest
    inferInstanceAs (Decidable (rest.get? name = none ∧ entries.Distinct ∧ rest.Distinct))

instance : DecidablePred Distinct := decideDistinct

end Directory

namespace Directory.Distinct

variable {d : Directory}

/-- A directory that stands under a name. -/
theorem get? (h : d.Distinct) {name : String} {entries : Directory}
    (hentry : d.get? name = some (.directory entries)) : entries.Distinct := by
  induction d with
  | empty => contradiction
  | file other content rest ih =>
    rw [Directory.get?] at hentry
    split at hentry
    · simp at hentry
    · exact ih h.2 hentry
  | directory other sub rest _ ih =>
    rw [Directory.get?] at hentry
    split at hentry
    · obtain rfl := DirectoryEntry.directory.inj (Option.some.inj hentry)
      exact h.2.1
    · exact ih h.2.2 hentry

/-- A directory that stands at the end of a chain of names. -/
theorem entryAt? (h : d.Distinct) {names : List String} {entries : Directory}
    (hentry : d.entryAt? names = some (.directory entries)) : entries.Distinct := by
  induction names generalizing d with
  | nil =>
    obtain rfl := DirectoryEntry.directory.inj (Option.some.inj hentry)
    exact h
  | cons name rest ih =>
    rw [Directory.entryAt?] at hentry
    split at hentry
    · contradiction
    · split at hentry <;> simp at hentry
    · rename_i hget
      exact ih (h.get? hget) hentry

/-- Nothing that is not there comes from taking out a name. -/
theorem get?_erase_eq_none {name other : String} (h : d.get? other = none) :
    (d.erase name).get? other = none := by
  rcases eq_or_ne other name with rfl | hne
  · exact get?_erase_self d other
  · rw [get?_erase_of_ne d hne, h]

/-- Taking a name out. -/
theorem erase (h : d.Distinct) (name : String) : (d.erase name).Distinct := by
  induction d with
  | empty => trivial
  | file other content rest ih =>
    rw [Directory.erase]
    split
    · exact ih h.2
    · exact ⟨get?_erase_eq_none h.1, ih h.2⟩
  | directory other entries rest _ ih =>
    rw [Directory.erase]
    split
    · exact ih h.2.2
    · exact ⟨get?_erase_eq_none h.1, h.2.1, ih h.2.2⟩

/-- Putting a file under a name. -/
theorem set_file (h : d.Distinct) (name : String) (content : ByteArray) :
    (d.set name (.file content)).Distinct :=
  ⟨get?_erase_self d name, h.erase name⟩

/-- Putting a directory under a name. -/
theorem set_directory (h : d.Distinct) (name : String) {entries : Directory}
    (hentries : entries.Distinct) : (d.set name (.directory entries)).Distinct :=
  ⟨get?_erase_self d name, hentries, h.erase name⟩

/-- Putting a file or a directory at the end of a chain of names. -/
theorem setAt (h : d.Distinct) {entry : DirectoryEntry}
    (hentry : ∀ entries, entry = .directory entries → entries.Distinct) (names : List String) :
    (d.setAt entry names).Distinct := by
  induction names generalizing d with
  | nil => exact h
  | cons name rest ih =>
    cases rest with
    | nil =>
      cases entry with
      | file content => exact h.set_file name content
      | directory entries => exact h.set_directory name (hentry entries rfl)
    | cons next rest =>
      rw [Directory.setAt]
      split
      · rename_i hget
        exact h.set_directory name (ih (h.get? hget))
      · exact h

/-- Taking out what stands at the end of a chain of names. -/
theorem eraseAt (h : d.Distinct) (names : List String) : (d.eraseAt names).Distinct := by
  induction names generalizing d with
  | nil => exact h
  | cons name rest ih =>
    cases rest with
    | nil => exact h.erase name
    | cons next rest =>
      rw [Directory.eraseAt]
      split
      · rename_i hget
        exact h.set_directory name (ih (h.get? hget))
      · exact h

end Directory.Distinct

namespace Disk

/-- A disk on which every name stands once in its directory. -/
def Distinct (d : Disk) : Prop := d.root.Distinct

instance : DecidablePred Distinct := fun d => inferInstanceAs (Decidable d.root.Distinct)

namespace Distinct

variable {d d' : Disk} {p : Path}

/-- The directory that a path leads to. -/
theorem entries? (h : d.Distinct) {entries : Directory} (hentries : d.entries? p = some entries) :
    entries.Distinct := by
  unfold Disk.entries? at hentries
  split at hentries
  · rename_i hentry
    obtain rfl := Option.some.inj hentries
    obtain ⟨place, -, hplace⟩ := Option.bind_eq_some_iff.mp hentry
    exact Directory.Distinct.entryAt? h hplace
  · contradiction

/-- Making directories along pieces. -/
theorem makeAlong {root : Directory} (h : root.Distinct) (place pieces : List String) :
    (Disk.makeAlong root place pieces).1.Distinct := by
  induction pieces generalizing root place with
  | nil => exact h
  | cons piece rest ih =>
    rw [makeAlong_cons]
    cases hone : makeOne? root place piece with
    | none => exact h
    | some root' =>
      refine ih ?_ _
      rw [makeOne?] at hone
      split at hone
      · exact Option.some.inj hone ▸ h
      · split at hone
        · exact Option.some.inj hone ▸ h
        · contradiction
        · split at hone
          · refine Option.some.inj hone ▸ h.setAt (fun entries hentries => ?_) _
            exact DirectoryEntry.directory.inj hentries ▸ trivial
          · contradiction

/-- Making the directories of a path. -/
theorem make? (h : d.Distinct) (hmake : d.make? p = some d') : d'.Distinct := by
  obtain ⟨-, -, rfl⟩ := make?_eq_some_iff.mp hmake
  change (makeWay d.root (d.startOf p) p).1.Distinct
  rw [makeWay]
  split
  · rw [makeParents_fst]
    exact makeAlong h _ _
  · exact makeAlong h _ _

/-- Clearing away what a path leads to. -/
theorem clear? (h : d.Distinct) (hclear : d.clear? p = some d') : d'.Distinct := by
  rw [Disk.clear?, removeDirectory?] at hclear
  split at hclear
  · split at hclear
    · obtain ⟨place, -, rfl⟩ := Option.map_eq_some_iff.mp hclear
      exact Directory.Distinct.eraseAt h place
    · contradiction
  · exact Option.some.inj hclear ▸ h

/-- Writing a file. -/
theorem writeBytes? (h : d.Distinct) {content : ByteArray}
    (hwrite : d.writeBytes? p content = some d') : d'.Distinct := by
  obtain ⟨name, place, -, -, rfl⟩ := writeBytes?_eq_some hwrite
  exact Directory.Distinct.setAt h (fun _ hentry => by contradiction) _

end Distinct

end Disk

end StubGen
