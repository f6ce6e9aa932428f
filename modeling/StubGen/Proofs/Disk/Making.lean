import Mathlib.Data.List.DropRight
import StubGen.Proofs.Disk.Ways

/-!
# Making directories

Making directories puts directories where nothing was, on the way of the path only, and opens
that way. Whether it succeeds depends on what stands on the way, so it succeeds on two disks
alike if they agree there.
-/

namespace StubGen

open StubGen.Path (IsName)
open PathComponent (onward)

/-- What stands at a place stays, or a directory comes where nothing was. -/
def Occupant.Grows (before after : Option Occupant) : Prop :=
  after = before ∨ before = none ∧ after = some .directory

namespace Occupant.Grows

variable {before between after : Option Occupant}

/-- Nothing has to come. -/
theorem refl (before : Option Occupant) : Grows before before := .inl rfl

/-- What comes in two steps. -/
theorem trans (h : Grows before between) (hafter : Grows between after) : Grows before after := by
  rcases h with rfl | ⟨rfl, rfl⟩
  · exact hafter
  · rcases hafter with rfl | ⟨hnone, -⟩
    · exact .inr ⟨rfl, rfl⟩
    · contradiction

/-- Neither do files come nor go nor change. -/
theorem file_iff (h : Grows before after) {content : ByteArray} :
    after = some (.file content) ↔ before = some (.file content) := by
  rcases h with rfl | ⟨rfl, rfl⟩ <;> simp

/-- What is there stays. -/
theorem eq_of_ne_none (h : Grows before after) (hbefore : before ≠ none) : after = before :=
  h.resolve_right fun hnew => hbefore hnew.1

end Occupant.Grows

namespace Disk

variable {root root' : Directory} {place last : List String} {piece : String} {pieces : List String}

/-- The directory in which the place that a piece leads to has been made, unless a file stands
in the way or the name cannot be given. -/
def makeOne? (root : Directory) (place : List String) (piece : String) : Option Directory :=
  if (piece = "" ∨ piece = ".") ∨ piece = ".." then some root
  else
    match root.entryAt? (place ++ [piece]) with
    | some (.directory _) => some root
    | some (.file _) => none
    | none => if fits piece then some (root.setAt (.directory .empty) (place ++ [piece])) else none

/-- Directories are made one after the other. -/
theorem makeAlong_cons (root : Directory) (place : List String) (piece : String)
    (rest : List String) :
    makeAlong root place (piece :: rest) =
      match makeOne? root place piece with
      | some root' => makeAlong root' (onward place piece) rest
      | none => (root, none) := by
  rw [makeAlong, makeOne?]
  by_cases hstay : piece = "" ∨ piece = "."
  · simp only [hstay, true_or, if_true, PathComponent.onward_stay]
  by_cases hup : piece = ".."
  · simp [hup, PathComponent.onward_up]
  rw [if_neg hstay, if_neg hup, if_neg (not_or.mpr ⟨hstay, hup⟩),
    PathComponent.onward_name hstay hup]
  cases root.entryAt? (place ++ [piece]) with
  | none => cases fits piece <;> rfl
  | some entry => cases entry <;> rfl

/-- One directory can be made if it is there, or if nothing is there and the name can be
given. -/
theorem makeOne?_ne_none_iff :
    makeOne? root place piece ≠ none ↔
      ((piece = "" ∨ piece = ".") ∨ piece = "..") ∨
        root.occupant? (place ++ [piece]) = some .directory ∨
          root.occupant? (place ++ [piece]) = none ∧ fits piece = true := by
  rw [makeOne?]
  by_cases hdots : (piece = "" ∨ piece = ".") ∨ piece = ".."
  · simp [hdots]
  · rw [if_neg hdots, Directory.occupant?]
    cases root.entryAt? (place ++ [piece]) with
    | none => simp [hdots]
    | some entry => cases entry <;> simp [hdots, DirectoryEntry.occupant]

/-- Making one directory puts it where nothing was, if it is in a directory. -/
theorem occupant?_makeOne (h : makeOne? root place piece = some root') (passed : List String) :
    root'.occupant? passed =
      if passed = onward place piece ∧ root.occupant? (onward place piece) = none ∧
        root.occupant? place = some .directory
      then some .directory else root.occupant? passed := by
  rw [makeOne?] at h
  split at h
  · rename_i hdots
    obtain rfl := Option.some.inj h
    refine (if_neg ?_).symm
    rintro ⟨-, hnone, hplace⟩
    rcases hdots with hstay | rfl
    · simp [PathComponent.onward_stay hstay, hplace] at hnone
    · simp [PathComponent.onward_up, Directory.occupant?_dropLast hplace] at hnone
  · rename_i hdots
    rw [PathComponent.onward_name (mt .inl hdots) (mt .inr hdots)]
    split at h
    · rename_i hentry
      obtain rfl := Option.some.inj h
      simp [Directory.occupant?_eq_none_iff, hentry]
    · contradiction
    · rename_i hnone
      have hfree := Directory.occupant?_eq_none_iff.mpr hnone
      split at h
      · obtain rfl := Option.some.inj h
        rw [Directory.occupant?_setAt Directory.isLeaf_empty (by simp [hfree])]
        simp [hfree, DirectoryEntry.occupant]
      · contradiction

/-- In a directory, the directory that was made is there. -/
theorem directory_of_makeOne (hplace : root.occupant? place = some .directory)
    (h : makeOne? root place piece = some root') :
    root'.occupant? (onward place piece) = some .directory := by
  rw [occupant?_makeOne h]
  have hmakes : makeOne? root place piece ≠ none := h ▸ Option.some_ne_none root'
  by_cases hdots : (piece = "" ∨ piece = ".") ∨ piece = ".."
  · rcases hdots with hstay | rfl
    · simp [PathComponent.onward_stay hstay, hplace]
    · simp [PathComponent.onward_up, Directory.occupant?_dropLast hplace]
  · rw [PathComponent.onward_name (mt .inl hdots) (mt .inr hdots)]
    rcases (makeOne?_ne_none_iff.mp hmakes).resolve_left hdots with hthere | ⟨hfree, -⟩
    · simp [hthere]
    · simp [hfree, hplace]

/-- Making directories along pieces puts directories on their way where nothing was. -/
theorem occupant?_makeAlong (root : Directory) (place pieces : List String) (passed : List String) :
    (makeAlong root place pieces).1.occupant? passed = root.occupant? passed ∨
      passed ∈ wayAlong place pieces ∧ root.occupant? passed = none ∧
        (makeAlong root place pieces).1.occupant? passed = some .directory := by
  induction pieces generalizing root place with
  | nil => exact .inl rfl
  | cons piece rest ih =>
    rw [makeAlong_cons]
    cases hone : makeOne? root place piece with
    | none => exact .inl rfl
    | some root' =>
      have hpassed := occupant?_makeOne hone passed
      rcases ih root' (onward place piece) with hkept | ⟨hway, hnone, hnew⟩
      · split at hpassed
        · rename_i hmade
          refine .inr ⟨?_, hmade.1 ▸ hmade.2.1, hkept.trans hpassed⟩
          exact hmade.1 ▸ List.mem_cons_of_mem _ (start_mem_wayAlong _ _)
        · exact .inl (hkept.trans hpassed)
      · refine .inr ⟨List.mem_cons_of_mem _ hway, ?_, hnew⟩
        split at hpassed
        · simp [hpassed] at hnone
        · exact hpassed ▸ hnone

/-- Making directories along pieces ends where the pieces lead to. -/
theorem makeAlong_eq_some (h : (makeAlong root place pieces).2 = some last) :
    last = pieces.foldl onward place := by
  induction pieces generalizing root place with
  | nil => exact (Option.some.inj h).symm
  | cons piece rest ih =>
    rw [makeAlong_cons] at h
    cases hone : makeOne? root place piece with
    | none => simp [hone] at h
    | some root' =>
      rw [hone] at h
      exact ih h

/-- Once directories are made along pieces that start in a directory, their way is open. -/
theorem open_of_makeAlong (hplace : root.occupant? place = some .directory)
    (h : (makeAlong root place pieces).2 = some last) :
    ∀ passed ∈ wayAlong place pieces,
      (makeAlong root place pieces).1.occupant? passed = some .directory := by
  induction pieces generalizing root place with
  | nil => exact List.forall_mem_singleton.mpr hplace
  | cons piece rest ih =>
    refine List.forall_mem_cons.mpr ⟨?_, ?_⟩
    · exact (occupant?_makeAlong root place _ place).elim (·.trans hplace) fun hnew => hnew.2.2
    · rw [makeAlong_cons] at h ⊢
      cases hone : makeOne? root place piece with
      | none => simp [hone] at h
      | some root' =>
        rw [hone] at h
        exact ih (directory_of_makeOne hplace hone) h

/-- Where one disk has what the other has, or a directory, directories that can be made on the
other can be made on it, and then the same holds again. -/
theorem makeAlong_follows {first second : Directory} {shared : List String → Prop}
    (hway : ∀ passed ∈ wayAlong place pieces, shared passed)
    (hsame : ∀ passed, shared passed →
      second.occupant? passed = first.occupant? passed ∨ second.occupant? passed = some .directory)
    (h : (makeAlong first place pieces).2 ≠ none) :
    (makeAlong second place pieces).2 ≠ none ∧ ∀ passed, shared passed →
      (makeAlong second place pieces).1.occupant? passed =
          (makeAlong first place pieces).1.occupant? passed ∨
        (makeAlong second place pieces).1.occupant? passed = some .directory := by
  induction pieces generalizing first second place with
  | nil => exact ⟨h, hsame⟩
  | cons piece rest ih =>
    obtain ⟨hplace, hrest⟩ := List.forall_mem_cons.mp hway
    have hnext := hsame _ (hrest _ (start_mem_wayAlong _ rest))
    rw [makeAlong_cons] at h
    rw [makeAlong_cons, makeAlong_cons]
    cases hfirst : makeOne? first place piece with
    | none => simp [hfirst] at h
    | some first' =>
      rw [hfirst] at h
      have hmakes : makeOne? second place piece ≠ none := by
        refine makeOne?_ne_none_iff.mpr (or_iff_not_imp_left.mpr fun hdots => ?_)
        have hname : onward place piece = place ++ [piece] :=
          PathComponent.onward_name (mt .inl hdots) (mt .inr hdots)
        have hmade : makeOne? first place piece ≠ none := hfirst ▸ Option.some_ne_none first'
        have hthere := (makeOne?_ne_none_iff.mp hmade).resolve_left hdots
        rw [hname] at hnext
        exact hnext.elim (fun heq => heq ▸ hthere) .inl
      obtain ⟨second', hsecond⟩ := Option.ne_none_iff_exists'.mp hmakes
      rw [hsecond]
      refine ih hrest (fun passed hpassed => ?_) h
      rw [occupant?_makeOne hfirst, occupant?_makeOne hsecond]
      by_cases hnew : passed = onward place piece ∧ second.occupant? (onward place piece) = none ∧
          second.occupant? place = some .directory
      · exact .inr (if_pos hnew)
      rw [if_neg hnew]
      split
      · -- Made on the first disk only, so it was there on the second.
        rename_i hold
        rcases hnext with heq | hthere
        · have hparent := (hsame place hplace).elim (·.trans hold.2.2) id
          exact absurd ⟨hold.1, heq.trans hold.2.1, hparent⟩ hnew
        · exact .inr (hold.1 ▸ hthere)
      · exact hsame passed hpassed

/-- Pieces that stay where they are do not lengthen a way. -/
theorem mem_wayAlong_stay {more : List String} (hstay : ∀ piece ∈ more, piece = "" ∨ piece = ".")
    {passed : List String} : passed ∈ wayAlong place more ↔ passed = place := by
  induction more with
  | nil => exact List.mem_singleton
  | cons piece rest ih =>
    obtain ⟨hpiece, hrest⟩ := List.forall_mem_cons.mp hstay
    rw [wayAlong, PathComponent.onward_stay hpiece, List.mem_cons, ih hrest, or_self]

/-- The steps of a path pass the same places as its pieces. -/
theorem mem_wayAlong_steps (p : Path) (place passed : List String) :
    passed ∈ wayAlong place p.steps ↔ passed ∈ wayAlong place p.pieces := by
  let stays : String → Bool := fun piece => piece = "" || piece = "."
  have hsplit : p.pieces = p.steps ++ p.pieces.rtakeWhile stays :=
    List.rdropWhile_append_rtakeWhile.symm
  have hstay : ∀ piece ∈ p.pieces.rtakeWhile stays, piece = "" ∨ piece = "." := fun piece hpiece => by
    simpa [stays] using List.mem_rtakeWhile_imp hpiece
  rw [hsplit, mem_wayAlong_append, mem_wayAlong_stay hstay]
  refine ⟨.inl, fun h => h.elim id fun hend => ?_⟩
  exact hend ▸ end_mem_wayAlong _ _

/-- Making the directories above the last piece. -/
theorem makeParents_fst (root : Directory) (place pieces : List String) :
    (makeParents root place pieces).1 = (makeAlong root place pieces.dropLast).1 := by
  rw [makeParents]
  split <;> rename_i heq <;> rw [heq]

/-- The directories above the last piece can be made if what the last one leads to is then a
directory. -/
theorem makeParents_ne_none_iff :
    (makeParents root place pieces).2 ≠ none ↔
      (makeAlong root place pieces.dropLast).2 ≠ none ∧
        ∀ passed ∈ wayAlong (pieces.dropLast.foldl onward place) pieces.getLast?.toList,
          (makeAlong root place pieces.dropLast).1.occupant? passed = some .directory := by
  rw [makeParents]
  split
  · rename_i heq
    simp [heq]
  · rename_i made parent heq
    obtain rfl : parent = pieces.dropLast.foldl onward place := makeAlong_eq_some (by rw [heq])
    rw [heq]
    constructor
    · intro h
      obtain ⟨last, hlast⟩ := Option.ne_none_iff_exists'.mp h
      obtain ⟨hfollow, hdirectory⟩ := Option.filter_eq_some_iff.mp hlast
      exact ⟨by simp, open_of_follow? hfollow (Directory.isDirectoryAt_iff.mp hdirectory)⟩
    · rintro ⟨-, hopen⟩
      have hdirectory := Directory.isDirectoryAt_iff.mpr (hopen _ (end_mem_wayAlong _ _))
      rw [follow?_of_open hopen, Option.filter_some, if_pos hdirectory]
      exact Option.some_ne_none _

/-- What making the directories of a path does to the root. -/
def makeWay (root : Directory) (start : List String) (p : Path) : Directory × Option (List String) :=
  if p.endsInDot then makeParents root start p.steps else makeAlong root start p.pieces

variable {start : List String} {p : Path}

/-- The steps of a path but the last, and that one. -/
theorem mem_wayAlong_dropLast (p : Path) (start passed : List String) :
    passed ∈ wayAlong start p.pieces ↔ passed ∈ wayAlong start p.steps.dropLast ∨
      passed ∈ wayAlong (p.steps.dropLast.foldl onward start) p.steps.getLast?.toList := by
  have hsplit : p.steps = p.steps.dropLast ++ p.steps.getLast?.toList := by
    rcases List.eq_nil_or_concat' p.steps with hnil | ⟨before, last, hlast⟩
    · rw [hnil]
      rfl
    · rw [hlast, List.dropLast_concat, List.getLast?_concat]
      rfl
  rw [← mem_wayAlong_steps, ← mem_wayAlong_append, ← hsplit]

/-- Making the directories of a path puts directories on its way where nothing was. -/
theorem occupant?_makeWay (root : Directory) (start : List String) (p : Path)
    (passed : List String) :
    (makeWay root start p).1.occupant? passed = root.occupant? passed ∨
      passed ∈ wayAlong start p.pieces ∧ root.occupant? passed = none ∧
        (makeWay root start p).1.occupant? passed = some .directory := by
  rw [makeWay]
  split
  · rw [makeParents_fst, mem_wayAlong_dropLast]
    exact (occupant?_makeAlong root start _ passed).imp_right fun h => ⟨.inl h.1, h.2⟩
  · exact occupant?_makeAlong root start _ passed

/-- Once the directories of a path that starts in a directory are made, its way is open. -/
theorem open_of_makeWay (hstart : root.occupant? start = some .directory)
    (h : (makeWay root start p).2 ≠ none) :
    ∀ passed ∈ wayAlong start p.pieces,
      (makeWay root start p).1.occupant? passed = some .directory := by
  rw [makeWay] at h ⊢
  split at h
  · rename_i hdot
    obtain ⟨hparents, hlast⟩ := makeParents_ne_none_iff.mp h
    obtain ⟨parent, hparent⟩ := Option.ne_none_iff_exists'.mp hparents
    intro passed hpassed
    rw [if_pos hdot, makeParents_fst]
    rcases (mem_wayAlong_dropLast p start passed).mp hpassed with habove | hend
    · exact open_of_makeAlong hstart hparent passed habove
    · exact hlast passed hend
  · rename_i hdot
    obtain ⟨last, hlast⟩ := Option.ne_none_iff_exists'.mp h
    rw [if_neg hdot]
    exact open_of_makeAlong hstart hlast

/-- Where one disk has what the other has, or a directory, the directories of a path that can be
made on the other can be made on it, and then the same holds again. -/
theorem makeWay_follows {first second : Directory} {shared : List String → Prop}
    (hway : ∀ passed ∈ wayAlong start p.pieces, shared passed)
    (hsame : ∀ passed, shared passed →
      second.occupant? passed = first.occupant? passed ∨ second.occupant? passed = some .directory)
    (h : (makeWay first start p).2 ≠ none) :
    (makeWay second start p).2 ≠ none ∧ ∀ passed, shared passed →
      (makeWay second start p).1.occupant? passed = (makeWay first start p).1.occupant? passed ∨
        (makeWay second start p).1.occupant? passed = some .directory := by
  rw [makeWay] at h
  rw [makeWay, makeWay]
  split at h
  · rename_i hdot
    obtain ⟨hparents, hlast⟩ := makeParents_ne_none_iff.mp h
    have habove : ∀ passed ∈ wayAlong start p.steps.dropLast, shared passed := fun passed hpassed =>
      hway passed ((mem_wayAlong_dropLast p start passed).mpr (.inl hpassed))
    obtain ⟨hmade, hafter⟩ := makeAlong_follows habove hsame hparents
    rw [if_pos hdot, if_pos hdot, makeParents_fst, makeParents_fst]
    refine ⟨makeParents_ne_none_iff.mpr ⟨hmade, fun passed hpassed => ?_⟩, hafter⟩
    have hshared := hway passed ((mem_wayAlong_dropLast p start passed).mpr (.inr hpassed))
    exact (hafter passed hshared).elim (·.trans (hlast passed hpassed)) id
  · rename_i hdot
    rw [if_neg hdot, if_neg hdot]
    exact makeAlong_follows hway hsame h

end Disk

end StubGen
