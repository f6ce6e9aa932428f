import StubGen.Proofs.Disk.Occupants
import StubGen.Proofs.Disk.Places

/-!
# Ways of paths

The way of a path is the list of the places that its pieces pass, from where the path starts to
the place that it names. A path leads to a directory if every place on its way is one. What a
path with one more name leads to is what stands under that name, provided that the way of the
path before it is open.
-/

namespace StubGen

open StubGen.Path (IsName)

namespace PathComponent

/-- The place that a piece of a path leads to from a place, whether or not anything stands
there. -/
def onward (place : List String) (piece : String) : List String :=
  (ofPiece? piece).toList.foldl move place

variable {place : List String} {piece : String}

/-- An empty piece and a dot stay where they are. -/
theorem onward_stay (h : piece = "" ∨ piece = ".") : onward place piece = place := by
  simp [onward, ofPiece?, h]

/-- A double dot leads back. -/
theorem onward_up : onward place ".." = place.dropLast := rfl

/-- Every other piece is a name. -/
theorem onward_name (hstay : ¬ (piece = "" ∨ piece = ".")) (hup : piece ≠ "..") :
    onward place piece = place ++ [piece] := by
  simp [onward, ofPiece?, hstay, hup, move]

/-- Pieces lead on as the steps that they stand for. -/
theorem foldl_onward (place : List String) (pieces : List String) :
    pieces.foldl onward place = (pieces.filterMap ofPiece?).foldl move place := by
  induction pieces generalizing place with
  | nil => rfl
  | cons piece rest ih =>
    rw [List.foldl_cons, ih, onward, List.filterMap_cons]
    cases ofPiece? piece <;> rfl

end PathComponent

open PathComponent (onward)

namespace Disk

/-- The places that pieces of a path pass, from a first one on. -/
def wayAlong (place : List String) : List String → List (List String)
  | [] => [place]
  | piece :: rest => place :: wayAlong (onward place piece) rest

/-- A way begins where it starts. -/
theorem start_mem_wayAlong (place : List String) (pieces : List String) :
    place ∈ wayAlong place pieces := by
  cases pieces <;> simp [wayAlong]

/-- A way along more pieces goes on where the first ones end. -/
theorem mem_wayAlong_append {passed : List String} (place : List String) (pieces more : List String) :
    passed ∈ wayAlong place (pieces ++ more) ↔
      passed ∈ wayAlong place pieces ∨ passed ∈ wayAlong (pieces.foldl onward place) more := by
  induction pieces generalizing place with
  | nil =>
    refine ⟨.inr, fun h => h.elim (fun hstart => ?_) id⟩
    obtain rfl := List.mem_singleton.mp hstart
    exact start_mem_wayAlong _ _
  | cons piece rest ih => simp only [List.cons_append, wayAlong, List.mem_cons, ih, or_assoc,
      List.foldl_cons]

/-- A way ends where its pieces lead to. -/
theorem end_mem_wayAlong (place : List String) (pieces : List String) :
    pieces.foldl onward place ∈ wayAlong place pieces := by
  induction pieces generalizing place with
  | nil => exact List.mem_singleton_self place
  | cons piece rest ih => exact List.mem_cons_of_mem _ (ih _)

variable {root : Directory} {place last : List String} {pieces : List String}

/-- A piece can be followed from a directory to anything that exists. -/
theorem step?_eq (root : Directory) (place : List String) (piece : String) :
    step? root place piece =
      if root.occupant? place = some .directory ∧ root.occupant? (onward place piece) ≠ none
      then some (onward place piece) else none := by
  unfold step?
  by_cases hplace : root.occupant? place = some .directory
  · rw [if_pos (Directory.isDirectoryAt_iff.mpr hplace)]
    by_cases hstay : piece = "" ∨ piece = "."
    · simp [hstay, PathComponent.onward_stay hstay, hplace]
    by_cases hup : piece = ".."
    · simp [hup, PathComponent.onward_up, hplace, Directory.occupant?_dropLast hplace]
    · rw [if_neg hstay, if_neg hup, PathComponent.onward_name hstay hup]
      simp [hplace, Directory.occupant?_eq_none_iff, Option.isSome_iff_ne_none]
  · rw [if_neg (mt Directory.isDirectoryAt_iff.mp hplace), if_neg fun h => hplace h.1]

/-- A way through directories can be followed to its end. -/
theorem follow?_of_open (h : ∀ passed ∈ wayAlong place pieces, root.occupant? passed = some .directory) :
    follow? root place pieces = some (pieces.foldl onward place) := by
  induction pieces generalizing place with
  | nil => rfl
  | cons piece rest ih =>
    obtain ⟨hplace, hrest⟩ := List.forall_mem_cons.mp h
    have hnext := hrest _ (start_mem_wayAlong _ rest)
    rw [follow?, step?_eq, if_pos ⟨hplace, by simp [hnext]⟩]
    exact ih hrest

/-- A way that can be followed to a directory is one through directories. -/
theorem open_of_follow? (h : follow? root place pieces = some last)
    (hlast : root.occupant? last = some .directory) :
    ∀ passed ∈ wayAlong place pieces, root.occupant? passed = some .directory := by
  induction pieces generalizing place with
  | nil =>
    obtain rfl := Option.some.inj h
    exact List.forall_mem_singleton.mpr hlast
  | cons piece rest ih =>
    obtain ⟨next, hstep, hrest⟩ := Option.bind_eq_some_iff.mp h
    rw [step?_eq] at hstep
    split at hstep
    · rename_i hdirectory
      obtain rfl := Option.some.inj hstep
      exact List.forall_mem_cons.mpr ⟨hdirectory.1, ih hrest⟩
    · contradiction

/-- Pieces are followed one part after the other. -/
theorem follow?_append (root : Directory) (place pieces more : List String) :
    follow? root place (pieces ++ more) =
      (follow? root place pieces).bind fun last => follow? root last more := by
  induction pieces generalizing place with
  | nil => rfl
  | cons piece rest ih => simp only [List.cons_append, follow?, ih, Option.bind_assoc]

variable {d : Disk} {p q : Path}

/-- The places that a path passes. -/
def way (d : Disk) (p : Path) : List (List String) := wayAlong (d.startOf p) p.pieces

/-- A path that passes directories only. -/
def Open (d : Disk) (p : Path) : Prop := ∀ place ∈ d.way p, d.root.occupant? place = some .directory

instance (d : Disk) (p : Path) : Decidable (d.Open p) :=
  inferInstanceAs (Decidable (∀ place ∈ d.way p, d.root.occupant? place = some .directory))

/-- A path names the place that its pieces lead to. -/
theorem resolved_eq (d : Disk) (p : Path) :
    d.resolved p = p.pieces.foldl onward (d.startOf p) := by
  by_cases htext : p.text = ""
  · obtain rfl : p = ⟨""⟩ := congrArg Path.mk htext
    rfl
  · obtain ⟨first, rest, hpieces, hfirst⟩ := Path.exists_pieces htext
    rw [PathComponent.foldl_onward, resolved, Path.components, hpieces, Path.componentsOf_cons hfirst,
      List.foldl_append, ← foldl_move_first (Path.isAbsolute_iff hpieces hfirst), ← List.foldl_append,
      List.filterMap_cons]
    cases PathComponent.ofPiece? first <;> rfl

/-- The place of a path depends on the working directory only. -/
theorem resolved_congr {e : Disk} (h : e.working = d.working) (p : Path) :
    e.resolved p = d.resolved p := by
  rw [resolved, resolved, h]

/-- So does the way of a path. -/
theorem way_congr {e : Disk} (h : e.working = d.working) (p : Path) : e.way p = d.way p := by
  rw [way, way, startOf, startOf, h]

/-- The way of a path ends at the place that it names. -/
theorem resolved_mem_way (d : Disk) (p : Path) : d.resolved p ∈ d.way p := by
  rw [resolved_eq]
  exact end_mem_wayAlong _ _

/-- The pieces of a joined path that come from the first one lead along its way. -/
theorem wayAlong_before (hq : q.isAbsolute = false) :
    ∃ before, (p.join q).pieces = before ++ q.pieces ∧
      before.foldl onward (d.startOf p) = d.resolved p ∧
      ∀ place, place ∈ wayAlong (d.startOf p) before ↔ place ∈ d.way p := by
  obtain ⟨before, hjoin, hbefore⟩ := Path.pieces_join p hq
  refine ⟨before, hjoin, ?_⟩
  rw [resolved_eq, way]
  rcases hbefore with hpieces | hpieces
  · exact hpieces ▸ ⟨rfl, fun _ => Iff.rfl⟩
  · have hstay : onward (before.foldl onward (d.startOf p)) "" = before.foldl onward (d.startOf p) :=
      PathComponent.onward_stay (.inl rfl)
    rw [hpieces]
    refine ⟨by rw [List.foldl_append, List.foldl_cons, hstay, List.foldl_nil], fun place => ?_⟩
    rw [mem_wayAlong_append, wayAlong, wayAlong, hstay]
    refine ⟨.inl, fun h => h.elim id fun hend => ?_⟩
    obtain rfl : place = before.foldl onward (d.startOf p) := by simpa using hend
    exact end_mem_wayAlong _ _

/-- A joined path starts where the first one starts. -/
theorem startOf_join (d : Disk) (p : Path) (hq : q.isAbsolute = false) :
    d.startOf (p.join q) = d.startOf p := by
  rw [startOf, startOf, Path.isAbsolute_join p hq]

/-- A joined path goes on from the place that the first one names. -/
theorem resolved_join (d : Disk) (p : Path) (hq : q.isAbsolute = false) :
    d.resolved (p.join q) = q.pieces.foldl onward (d.resolved p) := by
  obtain ⟨before, hpieces, hend, -⟩ := wayAlong_before (d := d) (p := p) hq
  rw [resolved_eq, hpieces, List.foldl_append, startOf_join d p hq, hend]

/-- The way of a joined path is that of the first one and what follows from its end. -/
theorem mem_way_join (hq : q.isAbsolute = false) {place : List String} :
    place ∈ d.way (p.join q) ↔ place ∈ d.way p ∨ place ∈ wayAlong (d.resolved p) q.pieces := by
  obtain ⟨before, hpieces, hend, hway⟩ := wayAlong_before (d := d) (p := p) hq
  rw [way, hpieces, mem_wayAlong_append, startOf_join d p hq, hend, hway]

section Names

variable {name : String} (hname : IsName name)
include hname

/-- A path with one more name names what is under that name. -/
theorem resolved_join_name (d : Disk) (p : Path) :
    d.resolved (p.join ⟨name⟩) = d.resolved p ++ [name] := by
  rw [resolved_join d p hname.isAbsolute, hname.pieces]
  exact PathComponent.onward_name (by simp [hname.ne_empty, hname.ne_here]) hname.ne_up

/-- A path with one more name passes one more place. -/
theorem mem_way_join_name {place : List String} :
    place ∈ d.way (p.join ⟨name⟩) ↔ place ∈ d.way p ∨ place = d.resolved p ++ [name] := by
  have hend : onward (d.resolved p) name = d.resolved p ++ [name] :=
    PathComponent.onward_name (by simp [hname.ne_empty, hname.ne_here]) hname.ne_up
  rw [mem_way_join hname.isAbsolute, hname.pieces, wayAlong, wayAlong, hend]
  constructor
  · rintro (hway | hend)
    · exact .inl hway
    · rcases List.mem_cons.mp hend with rfl | hend
      · exact .inl (resolved_mem_way d p)
      · exact .inr (List.mem_singleton.mp hend)
  · rintro (hway | rfl)
    · exact .inl hway
    · exact .inr (by simp)

/-- The way of a path with one more name is open if that of the path is and a directory stands
under the name. -/
theorem open_join_name_iff :
    d.Open (p.join ⟨name⟩) ↔
      d.Open p ∧ d.root.occupant? (d.resolved p ++ [name]) = some .directory := by
  simp only [Open, mem_way_join_name hname, or_imp, forall_and, forall_eq]

/-- The last name of a path leads from the end of an open way to what stands under it. -/
theorem place?_join_name :
    d.place? (p.join ⟨name⟩) =
      if accepts (p.join ⟨name⟩) = true ∧ d.Open p ∧
        d.root.occupant? (d.resolved p ++ [name]) ≠ none
      then some (d.resolved p ++ [name]) else none := by
  obtain ⟨before, hpieces, hend, hway⟩ := wayAlong_before (d := d) (p := p) hname.isAbsolute
  have hopen : d.Open p ↔ ∀ passed ∈ wayAlong (d.startOf p) before,
      d.root.occupant? passed = some .directory := by simp only [Open, hway]
  have hlast : onward (d.resolved p) name = d.resolved p ++ [name] :=
    PathComponent.onward_name (by simp [hname.ne_empty, hname.ne_here]) hname.ne_up
  rw [place?, startOf_join d p hname.isAbsolute, hpieces, hname.pieces, follow?_append]
  by_cases haccepts : accepts (p.join ⟨name⟩) = true
  · rw [if_pos haccepts]
    by_cases hdirectories : d.Open p
    · rw [follow?_of_open (hopen.mp hdirectories), hend, Option.bind_some, follow?, step?_eq, hlast]
      have hparent : d.root.occupant? (d.resolved p) = some .directory :=
        hdirectories _ (resolved_mem_way d p)
      simp only [haccepts, hdirectories, hparent, true_and, follow?, Option.bind_fun_some]
    · rw [if_neg (by simp [hdirectories])]
      cases hfollow : follow? d.root (d.startOf p) before with
      | none => rfl
      | some last =>
        have hclosed : d.root.occupant? last ≠ some .directory := fun hdirectory =>
          hdirectories (hopen.mpr (open_of_follow? hfollow hdirectory))
        simp [follow?, step?_eq, hclosed]
  · rw [if_neg haccepts, if_neg fun h => haccepts h.1]

/-- A path with one more name leads to what stands under that name if its way before is open. -/
theorem entry?_join_name :
    d.entry? (p.join ⟨name⟩) =
      if accepts (p.join ⟨name⟩) = true ∧ d.Open p
      then d.root.entryAt? (d.resolved p ++ [name]) else none := by
  unfold entry?
  rw [place?_join_name hname]
  by_cases hfound : d.root.occupant? (d.resolved p ++ [name]) = none
  · rw [if_neg (by simp [hfound]), Directory.occupant?_eq_none_iff.mp hfound]
    simp
  · by_cases hopen : accepts (p.join ⟨name⟩) = true ∧ d.Open p
    · rw [if_pos ⟨hopen.1, hopen.2, hfound⟩, if_pos hopen, Option.bind_some]
    · rw [if_neg (fun h => hopen ⟨h.1, h.2.1⟩), if_neg hopen, Option.bind_none]

/-- A path with one more name leads to something if its way before is open and something stands
under the name. -/
theorem holds_join_name_iff :
    d.holds (p.join ⟨name⟩) = true ↔ (accepts (p.join ⟨name⟩) = true ∧ d.Open p) ∧
      d.root.occupant? (d.resolved p ++ [name]) ≠ none := by
  rw [holds, entry?_join_name hname, Option.isSome_iff_ne_none, Ne, ne_eq,
    Directory.occupant?_eq_none_iff]
  split
  · rename_i hopen
    simp [hopen]
  · rename_i hopen
    simp [hopen]

end Names

/-- The content of a file is that of the entry. -/
theorem bytes?_eq_some_iff {content : ByteArray} :
    d.bytes? p = some content ↔ d.entry? p = some (.file content) := by
  rw [bytes?]
  cases d.entry? p with
  | none => simp
  | some entry => cases entry <;> simp

/-- A path that goes on with names leads to what stands under them if its way before is open. -/
theorem entry?_extend {names : List String} (hne : names ≠ [])
    (hnames : ∀ name ∈ names, IsName name) :
    d.entry? (p.extend names) =
      if accepts (p.extend names) = true ∧ d.Open p
      then d.root.entryAt? (d.resolved p ++ names) else none := by
  induction names generalizing p with
  | nil => contradiction
  | cons name rest ih =>
    obtain ⟨hname, hrest⟩ := List.forall_mem_cons.mp hnames
    rcases eq_or_ne rest [] with rfl | hmore
    · exact entry?_join_name hname
    rw [Path.extend, ih hmore hrest, resolved_join_name hname, List.append_assoc,
      List.singleton_append]
    simp only [open_join_name_iff hname]
    by_cases hdirectory : d.root.occupant? (d.resolved p ++ [name]) = some .directory
    · simp only [hdirectory, and_true]
    · -- What is not a directory leads nowhere.
      have hnone := Directory.occupant?_append_of_ne_directory hmore hdirectory
      rw [List.append_assoc, List.singleton_append, Directory.occupant?_eq_none_iff] at hnone
      simp [hdirectory, hnone]

/-- A path that goes on with names leads to a file if its way before is open and the file stands
under the names. -/
theorem bytes?_extend_iff {names : List String} (hne : names ≠ [])
    (hnames : ∀ name ∈ names, IsName name) {content : ByteArray} :
    d.bytes? (p.extend names) = some content ↔
      (accepts (p.extend names) = true ∧ d.Open p) ∧
        d.root.occupant? (d.resolved p ++ names) = some (.file content) := by
  rw [bytes?_eq_some_iff, entry?_extend hne hnames, Directory.occupant?_eq_file_iff]
  split
  · rename_i hopen
    simp [hopen]
  · rename_i hopen
    simp [hopen]

/-- The entries of a directory stand below its place. -/
theorem occupant?_of_entries? {entries : Directory} (h : d.entries? p = some entries)
    (names : List String) :
    entries.occupant? names = d.root.occupant? (d.resolved p ++ names) := by
  rw [entries?, entry?] at h
  split at h
  · rename_i hentry
    obtain rfl := Option.some.inj h
    obtain ⟨place, hplace, hthere⟩ := Option.bind_eq_some_iff.mp hentry
    rw [Directory.occupant?, Directory.occupant?, ← place?_eq_resolved hplace,
      Directory.entryAt?_append hthere]
  · contradiction

/-- A path leads to a directory exactly if it is accepted and passes directories only. -/
theorem isDirectory_iff : d.isDirectory p = true ↔ accepts p = true ∧ d.Open p := by
  have hentry : d.isDirectory p = true ↔ ∃ place entries, d.place? p = some place ∧
      d.root.entryAt? place = some (.directory entries) := by
    rw [isDirectory, entries?, entry?]
    cases d.place? p with
    | none => simp
    | some place =>
      cases hplace : d.root.entryAt? place with
      | none => simp [hplace]
      | some entry => cases entry <;> simp [hplace]
  rw [hentry]
  constructor
  · rintro ⟨place, entries, hplace, hdirectory⟩
    rw [place?] at hplace
    split at hplace
    · rename_i haccepts
      exact ⟨haccepts, open_of_follow? hplace (by simp [Directory.occupant?, hdirectory]; rfl)⟩
    · contradiction
  · rintro ⟨haccepts, hopen⟩
    have hend := hopen _ (resolved_mem_way d p)
    obtain ⟨entry, hentry, hoccupant⟩ := Option.map_eq_some_iff.mp hend
    cases entry with
    | file content => contradiction
    | directory entries =>
      refine ⟨d.resolved p, entries, ?_, hentry⟩
      rw [place?, if_pos haccepts, resolved_eq]
      exact follow?_of_open hopen

/-- Two disks on which the same stands at every place. The order in which a directory lists its
entries makes no difference. -/
structure Same (d e : Disk) : Prop where
  working : d.working = e.working
  places : ∀ place, d.root.occupant? place = e.root.occupant? place

/-- Disks on which the same stands everywhere have the same directories. -/
theorem Same.isDirectory_iff {e : Disk} (h : e.Same d) (p : Path) :
    e.isDirectory p = true ↔ d.isDirectory p = true := by
  rw [Disk.isDirectory_iff, Disk.isDirectory_iff]
  simp only [Open, way_congr h.working, h.places]

end Disk

end StubGen
