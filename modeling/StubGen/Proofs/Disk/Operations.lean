import StubGen.Proofs.Disk.Making

/-!
# What operations do to a disk

The three operations by which files are generated, each described by what it does to every
place of the disk: making the directories of a path, clearing away what stands under a name,
and writing a file under a name. The last two look at the way of the path before the name and
at what stands under the name, and at nothing else.
-/

namespace StubGen

open StubGen.Path (IsName)

namespace Disk

variable {d d' e : Disk} {p : Path} {name : String}

/-- The disk with the directories of a path, if they can be made. -/
def make? (d : Disk) (p : Path) : Option Disk :=
  if (d.makeDirectories p).2 then some (d.makeDirectories p).1 else none

/-- The disk without the directory that a path leads to, if it leads to anything. -/
def clear? (d : Disk) (p : Path) : Option Disk :=
  if d.holds p then d.removeDirectory? p else some d

/-- The directories of a path are made along its way. The empty path has an empty way. -/
theorem makeDirectories_eq (d : Disk) (p : Path) :
    d.makeDirectories p =
      if p.text = "" ∨ accepts p = true then
        ({ d with root := (makeWay d.root (d.startOf p) p).1 },
          (makeWay d.root (d.startOf p) p).2.isSome)
      else (d, false) := by
  by_cases hempty : p.text = ""
  · obtain rfl : p = ⟨""⟩ := congrArg Path.mk hempty
    rfl
  · simp only [makeDirectories, hempty, if_false, false_or]
    refine if_congr Iff.rfl ?_ rfl
    rw [makeWay]
    cases p.endsInDot <;> rfl

/-- Making directories succeeds if it does along the way of the path. -/
theorem make?_eq_some_iff :
    d.make? p = some d' ↔
      (p.text = "" ∨ accepts p = true) ∧ (makeWay d.root (d.startOf p) p).2 ≠ none ∧
        { d with root := (makeWay d.root (d.startOf p) p).1 } = d' := by
  rw [make?, makeDirectories_eq]
  split
  · rename_i hpath
    simp [hpath, Option.isSome_iff_ne_none]
  · rename_i hpath
    simp [hpath]

/-- Making the directories of a path puts directories on its way where nothing was. -/
theorem occupant?_of_make? (h : d.make? p = some d') :
    d'.working = d.working ∧ ∀ place, d'.root.occupant? place = d.root.occupant? place ∨
      place ∈ d.way p ∧ d.root.occupant? place = none ∧
        d'.root.occupant? place = some .directory := by
  obtain ⟨-, -, rfl⟩ := make?_eq_some_iff.mp h
  refine ⟨rfl, fun place => ?_⟩
  dsimp only
  exact occupant?_makeWay d.root (d.startOf p) p place

/-- Making directories lets what stands on the disk grow. -/
theorem grows_of_make? (h : d.make? p = some d') (place : List String) :
    Occupant.Grows (d.root.occupant? place) (d'.root.occupant? place) :=
  ((occupant?_of_make? h).2 place).imp_right And.right

/-- Once the directories of a path that starts in a directory are made, its way is open. -/
theorem open_of_make? (h : d.make? p = some d')
    (hstart : d.root.occupant? (d.startOf p) = some .directory) : d'.Open p := by
  obtain ⟨-, hmade, rfl⟩ := make?_eq_some_iff.mp h
  intro place hplace
  rw [way_congr rfl, way] at hplace
  dsimp only
  exact open_of_makeWay hstart hmade place hplace

/-- Where one disk has what the other has, or a directory, the directories of a path that can be
made on the other can be made on it, and then the same holds again. -/
theorem make?_follows (h : d.make? p = some d') (hworking : e.working = d.working)
    (hsame : ∀ place ∈ d.way p, e.root.occupant? place = d.root.occupant? place ∨
      e.root.occupant? place = some .directory) :
    ∃ e', e.make? p = some e' ∧ ∀ place ∈ d.way p,
      e'.root.occupant? place = d'.root.occupant? place ∨
        e'.root.occupant? place = some .directory := by
  obtain ⟨hpath, hmade, rfl⟩ := make?_eq_some_iff.mp h
  have hway : ∀ place ∈ wayAlong (d.startOf p) p.pieces, place ∈ d.way p := fun _ => id
  obtain ⟨hmakes, hafter⟩ := makeWay_follows hway hsame hmade
  have hstart : e.startOf p = d.startOf p := by rw [startOf, startOf, hworking]
  refine ⟨_, make?_eq_some_iff.mpr ⟨hpath, hstart ▸ hmakes, rfl⟩, fun place hplace => ?_⟩
  dsimp only
  rw [hstart]
  exact hafter place hplace

/-- A path with one more name can be looked at and leads through directories up to the name. -/
def Reaches (d : Disk) (p : Path) (name : String) : Prop :=
  accepts (p.join ⟨name⟩) = true ∧ d.Open p

section Names

variable (hname : IsName name)
include hname

/-- Where a name cannot be reached there is nothing to clear. -/
theorem clear?_of_not_reaches (h : ¬ d.Reaches p name) :
    d.clear? (p.join ⟨name⟩) = some d := by
  rw [clear?, if_neg]
  exact fun hholds => h ((holds_join_name_iff hname).mp hholds).1

/-- Where a name can be reached, what stands there has to be a directory to be cleared away. -/
theorem clear?_of_reaches (h : d.Reaches p name) :
    d.clear? (p.join ⟨name⟩) =
      match d.root.occupant? (d.resolved p ++ [name]) with
      | none => some d
      | some (.file _) => none
      | some .directory => some { d with root := d.root.eraseAt (d.resolved p ++ [name]) } := by
  have hholds := holds_join_name_iff (d := d) (p := p) hname
  have hdirectory : d.isDirectory (p.join ⟨name⟩) = true ↔
      d.root.occupant? (d.resolved p ++ [name]) = some .directory := by
    rw [isDirectory_iff, open_join_name_iff hname]
    exact ⟨fun hopen => hopen.2.2, fun hthere => ⟨h.1, h.2, hthere⟩⟩
  have hplace := place?_join_name (d := d) (p := p) hname
  rw [clear?, removeDirectory?]
  cases hthere : d.root.occupant? (d.resolved p ++ [name]) with
  | none => exact if_neg fun hheld => (hholds.mp hheld).2 hthere
  | some there =>
    rw [if_pos (hholds.mpr ⟨h, by simp [hthere]⟩)]
    cases there with
    | file content => exact if_neg (by simp [hdirectory, hthere])
    | directory =>
      rw [if_pos (hdirectory.mpr hthere), hplace, if_pos ⟨h.1, h.2, by simp [hthere]⟩]
      rfl

/-- A name can be cleared unless it can be reached and a file stands there. -/
theorem exists_clear? (h : d.Reaches p name → ∀ content,
      d.root.occupant? (d.resolved p ++ [name]) ≠ some (.file content)) :
    ∃ d', d.clear? (p.join ⟨name⟩) = some d' := by
  by_cases hreaches : d.Reaches p name
  · rw [clear?_of_reaches hname hreaches]
    split
    · exact ⟨_, rfl⟩
    · rename_i hfile
      exact absurd hfile (h hreaches _)
    · exact ⟨_, rfl⟩
  · exact ⟨d, clear?_of_not_reaches hname hreaches⟩

/-- Clearing a name that can be reached takes out what stands there and below, which is no
file. -/
theorem occupant?_of_clear? (hreaches : d.Reaches p name)
    (h : d.clear? (p.join ⟨name⟩) = some d') :
    d'.working = d.working ∧
      (∀ content, d.root.occupant? (d.resolved p ++ [name]) ≠ some (.file content)) ∧
      ∀ place, d'.root.occupant? place =
        if d.resolved p ++ [name] <+: place then none else d.root.occupant? place := by
  rw [clear?_of_reaches hname hreaches] at h
  split at h
  · rename_i hnone
    obtain rfl := Option.some.inj h
    refine ⟨rfl, by simp [hnone], fun place => ?_⟩
    split
    · rename_i hbelow
      obtain ⟨rest, rfl⟩ := hbelow
      rcases eq_or_ne rest [] with rfl | hrest
      · rw [List.append_nil, hnone]
      · exact Directory.occupant?_append_of_ne_directory hrest (by simp [hnone])
    · rfl
  · contradiction
  · rename_i hdirectory
    obtain rfl := Option.some.inj h
    exact ⟨rfl, by simp [hdirectory], Directory.occupant?_eraseAt (by simp)⟩

/-- Pieces of a path that ends in a name, without the name. -/
theorem follow?_dropLast_join_name :
    (p.join ⟨name⟩).pieces.getLast? = some name ∧
      ∀ place, (follow? d.root (d.startOf (p.join ⟨name⟩)) (p.join ⟨name⟩).pieces.dropLast =
          some place ∧ d.root.occupant? place = some .directory) ↔
        place = d.resolved p ∧ d.Open p := by
  obtain ⟨before, hpieces, hend, hway⟩ := wayAlong_before (d := d) (p := p) hname.isAbsolute
  rw [hpieces, hname.pieces, List.getLast?_concat, List.dropLast_concat,
    startOf_join d p hname.isAbsolute]
  refine ⟨rfl, fun place => ⟨fun ⟨hfollow, hdirectory⟩ => ?_, ?_⟩⟩
  · have hopen := open_of_follow? hfollow hdirectory
    refine ⟨?_, fun passed hpassed => hopen passed ((hway passed).mpr hpassed)⟩
    rw [follow?_of_open hopen] at hfollow
    exact (Option.some.inj hfollow).symm.trans hend
  · rintro ⟨rfl, hopen⟩
    refine ⟨?_, hopen _ (resolved_mem_way d p)⟩
    rw [follow?_of_open fun passed hpassed => hopen passed ((hway passed).mp hpassed), hend]

/-- A file can be written under a name that can be reached and is free of directories. -/
theorem writeBytes?_join_name_iff {content : ByteArray} :
    d.writeBytes? (p.join ⟨name⟩) content = some d' ↔
      (d.Reaches p name ∧ fits name = true ∧
        d.root.occupant? (d.resolved p ++ [name]) ≠ some .directory) ∧
      { d with root := d.root.setAt (.file content) (d.resolved p ++ [name]) } = d' := by
  obtain ⟨hlast, hfollow⟩ := follow?_dropLast_join_name (d := d) (p := p) hname
  have hdots : ¬ (name = "" ∨ name = "." ∨ name = ".." ∨ (!fits name) = true) ↔ fits name = true := by
    simp [hname.ne_empty, hname.ne_here, hname.ne_up]
  rw [writeBytes?, hlast]
  by_cases haccepts : accepts (p.join ⟨name⟩) = true
  swap
  · simp [Reaches, haccepts]
  by_cases hfits : fits name = true
  swap
  · simp [haccepts, hname.ne_empty, hname.ne_here, hname.ne_up, hfits]
  simp only [haccepts, if_true, if_neg (hdots.mpr hfits)]
  by_cases hopen : d.Open p
  · obtain ⟨hplace, hdirectory⟩ := (hfollow _).mpr ⟨rfl, hopen⟩
    simp [hplace, Reaches, haccepts, hfits, hopen, hdirectory, Directory.isDirectoryAt_iff,
      ← Bool.not_eq_true]
  · -- What the pieces before the name lead to, if anything, is no directory.
    have hclosed place (hplace : follow? d.root (d.startOf (p.join ⟨name⟩))
        (p.join ⟨name⟩).pieces.dropLast = some place) :
        d.root.occupant? place ≠ some .directory := fun hdirectory =>
      hopen ((hfollow place).mp ⟨hplace, hdirectory⟩).2
    cases hplace : follow? d.root (d.startOf (p.join ⟨name⟩)) (p.join ⟨name⟩).pieces.dropLast with
    | none => simp [Reaches, hopen]
    | some place => simp [Reaches, hopen, Directory.isDirectoryAt_iff, hclosed place hplace]

/-- Writing a file fills its place and no other. -/
theorem occupant?_of_writeBytes? {content : ByteArray}
    (h : d.writeBytes? (p.join ⟨name⟩) content = some d') :
    d'.working = d.working ∧ ∀ place, d'.root.occupant? place =
      if place = d.resolved p ++ [name] then some (.file content)
      else d.root.occupant? place := by
  obtain ⟨⟨hreaches, -, hfree⟩, rfl⟩ := (writeBytes?_join_name_iff hname).mp h
  have hparent := hreaches.2 _ (resolved_mem_way d p)
  refine ⟨rfl, fun place => ?_⟩
  rw [Directory.occupant?_setAt (Directory.isLeaf_file content) hfree]
  simp [hparent, DirectoryEntry.occupant]

end Names

end Disk

end StubGen
