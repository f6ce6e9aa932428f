import StubGen.Disk
import StubGen.Proofs.Path.Components

/-!
# Names on a disk

A directory as a value may hold any text as a name. On a disk it holds names that a path can
lead to: they are not empty, are none of the dots and have no slash. Nothing that is done to a
disk brings in another name.
-/

namespace StubGen

open StubGen.Path (IsName)

namespace Directory

/-- A directory in which and below which paths lead to every entry. -/
def WellNamed : Directory → Prop
  | empty => True
  | file name _ rest => IsName name ∧ rest.WellNamed
  | directory name entries rest => IsName name ∧ entries.WellNamed ∧ rest.WellNamed

/-- Whether a directory has only names that paths can lead to. -/
def decideWellNamed : (d : Directory) → Decidable d.WellNamed
  | empty => .isTrue trivial
  | file name _ rest =>
    have := decideWellNamed rest
    inferInstanceAs (Decidable (IsName name ∧ rest.WellNamed))
  | directory name entries rest =>
    have := decideWellNamed entries
    have := decideWellNamed rest
    inferInstanceAs (Decidable (IsName name ∧ entries.WellNamed ∧ rest.WellNamed))

instance : DecidablePred WellNamed := decideWellNamed

end Directory

/-- An entry below which paths lead to every entry. -/
def DirectoryEntry.WellNamed : DirectoryEntry → Prop
  | file _ => True
  | directory entries => entries.WellNamed

namespace Directory.WellNamed

variable {d : Directory}

/-- What stands under a name. -/
theorem get? (h : d.WellNamed) {name : String} {entry : DirectoryEntry}
    (hentry : d.get? name = some entry) : IsName name ∧ entry.WellNamed := by
  induction d with
  | empty => contradiction
  | file other content rest ih =>
    by_cases hname : other = name
    · rw [Directory.get?, if_pos hname] at hentry
      obtain rfl := Option.some.inj hentry
      exact ⟨hname ▸ h.1, trivial⟩
    · rw [Directory.get?, if_neg hname] at hentry
      exact ih h.2 hentry
  | directory other entries rest _ ih =>
    by_cases hname : other = name
    · rw [Directory.get?, if_pos hname] at hentry
      obtain rfl := Option.some.inj hentry
      exact ⟨hname ▸ h.1, h.2.1⟩
    · rw [Directory.get?, if_neg hname] at hentry
      exact ih h.2.2 hentry

/-- What stands at the end of a chain of names. -/
theorem entryAt? (h : d.WellNamed) {names : List String} {entry : DirectoryEntry}
    (hentry : d.entryAt? names = some entry) : entry.WellNamed := by
  induction names generalizing d with
  | nil =>
    obtain rfl := Option.some.inj hentry
    exact h
  | cons name rest ih =>
    rw [Directory.entryAt?] at hentry
    split at hentry
    · contradiction
    · split at hentry
      · obtain rfl := Option.some.inj hentry
        trivial
      · contradiction
    · rename_i entries hget
      exact ih (h.get? hget).2 hentry

/-- Taking a name out. -/
theorem erase (h : d.WellNamed) (name : String) : (d.erase name).WellNamed := by
  induction d with
  | empty => trivial
  | file other content rest ih =>
    rw [Directory.erase]
    split
    · exact ih h.2
    · exact ⟨h.1, ih h.2⟩
  | directory other entries rest _ ih =>
    rw [Directory.erase]
    split
    · exact ih h.2.2
    · exact ⟨h.1, h.2.1, ih h.2.2⟩

/-- Putting an entry under a name. -/
theorem set (h : d.WellNamed) {name : String} (hname : IsName name) {entry : DirectoryEntry}
    (hentry : entry.WellNamed) : (d.set name entry).WellNamed := by
  cases entry with
  | file content => exact ⟨hname, h.erase name⟩
  | directory entries => exact ⟨hname, hentry, h.erase name⟩

/-- Putting an entry at the end of a chain of names. The names on the way are there already. -/
theorem setAt (h : d.WellNamed) {entry : DirectoryEntry} (hentry : entry.WellNamed)
    {names : List String} (hlast : ∀ name ∈ names.getLast?, IsName name) :
    (d.setAt entry names).WellNamed := by
  induction names generalizing d with
  | nil => exact h
  | cons name rest ih =>
    cases rest with
    | nil => exact h.set (hlast name rfl) hentry
    | cons next rest =>
      rw [Directory.setAt]
      split
      · rename_i entries hget
        obtain ⟨hname, hentries⟩ := h.get? hget
        exact h.set hname (ih hentries hlast)
      · exact h

/-- Taking out what stands at the end of a chain of names. -/
theorem eraseAt (h : d.WellNamed) (names : List String) : (d.eraseAt names).WellNamed := by
  induction names generalizing d with
  | nil => exact h
  | cons name rest ih =>
    cases rest with
    | nil => exact h.erase name
    | cons next rest =>
      rw [Directory.eraseAt]
      split
      · rename_i entries hget
        obtain ⟨hname, hentries⟩ := h.get? hget
        exact h.set hname (ih hentries)
      · exact h

end Directory.WellNamed

namespace Disk

/-- A disk on which paths lead to every entry. -/
def WellNamed (d : Disk) : Prop := d.root.WellNamed

instance : DecidablePred WellNamed := fun d => inferInstanceAs (Decidable d.root.WellNamed)

variable {d : Disk}

/-- A file is written under a name, in a directory that the rest of the path leads to. -/
theorem writeBytes?_eq_some {p : Path} {content : ByteArray} {d' : Disk}
    (h : d.writeBytes? p content = some d') :
    ∃ name place, IsName name ∧ follow? d.root (d.startOf p) p.pieces.dropLast = some place ∧
      d' = { d with root := d.root.setAt (.file content) (place ++ [name]) } := by
  unfold writeBytes? at h
  split at h
  · cases hlast : p.pieces.getLast? with
    | none => simp [hlast] at h
    | some name =>
      simp only [hlast] at h
      split at h
      · contradiction
      · rename_i hname
        obtain ⟨hempty, hhere, hup, -⟩ : name ≠ "" ∧ name ≠ "." ∧ name ≠ ".." ∧ _ := by
          simpa only [not_or] using hname
        have hslash := Path.no_slash_of_mem_pieces (List.mem_of_getLast? hlast)
        split at h
        · contradiction
        · rename_i place hplace
          split at h
          · exact ⟨name, place, ⟨hempty, hhere, hup, hslash⟩, hplace, (Option.some.inj h).symm⟩
          · contradiction
  · contradiction

namespace WellNamed

/-- The directory that a path leads to. -/
theorem entries? (h : d.WellNamed) {p : Path} {entries : Directory}
    (hentries : d.entries? p = some entries) : entries.WellNamed := by
  unfold Disk.entries? at hentries
  split at hentries
  · rename_i entries' hentry
    obtain rfl := Option.some.inj hentries
    obtain ⟨place, -, hplace⟩ := Option.bind_eq_some_iff.mp hentry
    exact Directory.WellNamed.entryAt? h hplace
  · contradiction

/-- Making directories along the pieces of a path. -/
theorem makeAlong {root : Directory} (h : root.WellNamed) {pieces : List String}
    (hpieces : ∀ piece ∈ pieces, '/' ∉ piece.toList) (place : List String) :
    (Disk.makeAlong root place pieces).1.WellNamed := by
  induction pieces generalizing root place with
  | nil => exact h
  | cons piece rest ih =>
    obtain ⟨hpiece, hrest⟩ := List.forall_mem_cons.mp hpieces
    rw [Disk.makeAlong]
    split
    · exact ih h hrest place
    · rename_i hdot
      split
      · exact ih h hrest _
      · rename_i hup
        have hname : IsName piece := ⟨mt .inl hdot, mt .inr hdot, hup, hpiece⟩
        split
        · exact ih h hrest _
        · exact h
        · split
          · have hempty : (DirectoryEntry.directory .empty).WellNamed := trivial
            exact ih (h.setAt hempty (by simpa using hname)) hrest _
          · exact h

/-- Making directories along all pieces but the last. -/
theorem makeParents {root : Directory} (h : root.WellNamed) {pieces : List String}
    (hpieces : ∀ piece ∈ pieces, '/' ∉ piece.toList) (place : List String) :
    (Disk.makeParents root place pieces).1.WellNamed := by
  have halong := makeAlong h (fun piece hp => hpieces piece (List.dropLast_subset _ hp)) place
  rw [Disk.makeParents]
  split <;> rename_i heq <;> simpa only [heq] using halong

/-- Making the directory that a path names. -/
theorem makeDirectories (h : d.WellNamed) (p : Path) : (d.makeDirectories p).1.WellNamed := by
  have hsteps : ∀ piece ∈ p.steps, '/' ∉ piece.toList := fun piece hp =>
    Path.no_slash_of_mem_pieces (Path.steps_subset_pieces p hp)
  unfold Disk.makeDirectories
  split
  · exact h
  · split
    · split
      · exact makeParents h hsteps _
      · exact makeAlong h (fun _ => Path.no_slash_of_mem_pieces) _
    · exact h

/-- Writing a file. -/
theorem writeBytes? (h : d.WellNamed) {p : Path} {content : ByteArray} {d' : Disk}
    (hwrite : d.writeBytes? p content = some d') : d'.WellNamed := by
  obtain ⟨name, place, hname, -, rfl⟩ := writeBytes?_eq_some hwrite
  have hcontent : (DirectoryEntry.file content).WellNamed := trivial
  exact Directory.WellNamed.setAt h hcontent (by simpa using hname)

/-- Removing a directory. -/
theorem removeDirectory? (h : d.WellNamed) {p : Path} {d' : Disk}
    (hremove : d.removeDirectory? p = some d') : d'.WellNamed := by
  unfold Disk.removeDirectory? at hremove
  split at hremove
  · obtain ⟨place, -, rfl⟩ := Option.map_eq_some_iff.mp hremove
    exact Directory.WellNamed.eraseAt h place
  · contradiction

/-- Removing a file. -/
theorem removeFile (h : d.WellNamed) (p : Path) : (d.removeFile p).WellNamed := by
  unfold Disk.removeFile
  split
  · split
    · exact Directory.WellNamed.eraseAt h _
    · exact h
  · exact h

end WellNamed

end Disk

end StubGen
