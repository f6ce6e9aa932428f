import Mathlib.Data.List.Infix
import StubGen.Disk
import StubGen.Proofs.Path.Components

/-!
# Places of paths

Starting in the working directory, the steps of a path name a place on the disk, whether or
not something stands there. As there are no links, a path that leads anywhere leads to this
place.
-/

namespace StubGen

/-- The place that a step leads to from a place. -/
def PathComponent.move (place : List String) : PathComponent → List String
  | root => []
  | here => place
  | up => place.dropLast
  | name text => place ++ [text]

namespace Disk

variable (d : Disk)

/-- The place that a path names, as the names that lead to it from the root. -/
def resolved (p : Path) : List String := p.components.foldl PathComponent.move d.working

/-- Whether the place of `f` is that of `e` or below it. -/
def Inside (e f : Path) : Prop := d.resolved e <+: d.resolved f

instance (e f : Path) : Decidable (d.Inside e f) :=
  inferInstanceAs (Decidable (d.resolved e <+: d.resolved f))

variable {d}

/-- Names lead on from a place. -/
theorem foldl_move_names (place names : List String) :
    (names.map .name).foldl PathComponent.move place = place ++ names := by
  induction names generalizing place with
  | nil => simp
  | cons text rest ih => simp [PathComponent.move, ih]

/-- The place of a path with more names at its end. -/
theorem resolved_of_components {p e : Path} {names : List String}
    (h : e.components = p.components ++ names.map .name) :
    d.resolved e = d.resolved p ++ names := by
  rw [resolved, h, List.foldl_append, foldl_move_names, resolved]

/-- Following a piece is following the step that it stands for. -/
theorem step?_eq_some {root : Directory} {place next : List String} {piece : String}
    (h : step? root place piece = some next) :
    next = (PathComponent.ofPiece? piece).toList.foldl PathComponent.move place := by
  unfold step? at h
  unfold PathComponent.ofPiece?
  split at h
  · split at h
    · rename_i hnone
      rw [if_pos hnone]
      exact (Option.some.inj h).symm
    · rename_i hnone
      rw [if_neg hnone]
      split at h
      · rename_i hup
        rw [if_pos hup]
        exact (Option.some.inj h).symm
      · rename_i hup
        rw [if_neg hup]
        split at h
        · exact (Option.some.inj h).symm
        · contradiction
  · contradiction

/-- Following pieces is following the steps that they stand for. -/
theorem follow?_eq_some {root : Directory} {place last : List String} {pieces : List String}
    (h : follow? root place pieces = some last) :
    last = (pieces.filterMap PathComponent.ofPiece?).foldl PathComponent.move place := by
  induction pieces generalizing place with
  | nil => exact (Option.some.inj h).symm
  | cons piece rest ih =>
    obtain ⟨next, hstep, hrest⟩ := Option.bind_eq_some_iff.mp h
    rw [ih hrest, step?_eq_some hstep, List.filterMap_cons]
    cases PathComponent.ofPiece? piece <;> rfl

/-- The first piece leads on from the start of the path as its step does from the working
directory. -/
theorem foldl_move_first {p : Path} {first : String} (h : p.isAbsolute = true ↔ first = "") :
    (PathComponent.ofPiece? first).toList.foldl PathComponent.move (d.startOf p) =
      (PathComponent.ofFirstPiece? first).toList.foldl PathComponent.move d.working := by
  by_cases hempty : first = ""
  · rw [startOf, if_pos (h.mpr hempty), hempty]
    rfl
  have hstart : d.startOf p = d.working := if_neg (mt h.mp hempty)
  rw [hstart, PathComponent.ofFirstPiece?, if_neg hempty]
  by_cases hhere : first = "."
  · rw [hhere]
    rfl
  · rw [if_neg hhere]

/-- A path that leads anywhere leads to the place that its steps name. -/
theorem place?_eq_resolved {p : Path} {place : List String} (h : d.place? p = some place) :
    place = d.resolved p := by
  unfold place? at h
  split at h
  · rename_i haccepts
    obtain ⟨first, rest, hpieces, hfirst⟩ := Path.exists_pieces (p := p) (by
      rintro hempty
      simp [accepts, hempty] at haccepts)
    rw [hpieces] at h
    obtain ⟨next, hstep, hrest⟩ := Option.bind_eq_some_iff.mp h
    rw [follow?_eq_some hrest, step?_eq_some hstep, resolved, Path.components, hpieces,
      Path.componentsOf_cons hfirst, List.foldl_append,
      foldl_move_first (Path.isAbsolute_iff hpieces hfirst)]
  · contradiction

end Disk

end StubGen
