import StubGen.Command
import StubGen.Proofs.Registry.History

/-!
# Loading sources

The registry that the sources of a project are loaded into depends on the texts under their
paths, and on nothing else of the disk.
-/

namespace StubGen

namespace Registry

variable {d d' : Disk} {r : Registry}

/-- Disks with the same texts under the registered paths load alike. -/
theorem load_congr (h : ∀ f ∈ r.files, d'.text? f.path = d.text? f.path) (id : FileId) :
    r.load d' id = r.load d id := by
  rw [load_eq, load_eq]
  cases hget : r.get? id with
  | none => rfl
  | some f => simp only [h f (List.mem_of_find?_eq_some hget)]

/-- Giving a file a text changes no path. -/
theorem map_path_replaceText (r : Registry) (id : FileId) (text : String) :
    (r.replaceText id text).files.map (·.path) = r.files.map (·.path) := by
  rw [replaceText, List.map_map]
  refine List.map_congr_left fun f _ => ?_
  rw [Function.comp_apply]
  split
  · exact f.withText_path text
  · rfl

/-- Loading a file changes no path. -/
theorem map_path_load (r : Registry) (d : Disk) (id : FileId) :
    (r.load d id).1.files.map (·.path) = r.files.map (·.path) := by
  rw [load_eq]
  cases r.get? id with
  | none => rfl
  | some f =>
    dsimp only
    cases d.text? f.path with
    | none => rfl
    | some text => exact map_path_replaceText r id text

/-- Registering a path adds no other. -/
theorem path_of_mem_register {p : Path} {f : SourceFile} (h : f ∈ (r.register p).1.files) :
    f ∈ r.files ∨ f.path = p := by
  cases hid : r.idOf? p with
  | some id =>
    rw [register_of_some hid] at h
    exact .inl h
  | none =>
    rw [register_of_none hid] at h
    rcases List.mem_append.mp h with hold | hnew
    · exact .inl hold
    · exact .inr (List.mem_singleton.mp hnew ▸ rfl)

/-- Registering a path and loading it adds no other path. -/
theorem path_of_mem_loadPath {p : Path} {f : SourceFile} (h : f ∈ (r.loadPath d p).1.files) :
    ∃ g ∈ (r.register p).1.files, g.path = f.path := by
  have hmem := List.mem_map_of_mem (f := (·.path)) h
  rw [loadPath_eq, map_path_load] at hmem
  exact List.mem_map.mp hmem

end Registry

namespace Command

/-- Disks with the same texts under the paths load to the same registry. -/
theorem loadAll_congr {d d' : Disk} {paths : List Path} {r : Registry}
    (hfiles : ∀ f ∈ r.files, d'.text? f.path = d.text? f.path)
    (hpaths : ∀ p ∈ paths, d'.text? p = d.text? p) : loadAll d' r paths = loadAll d r paths := by
  induction paths generalizing r with
  | nil => rfl
  | cons p rest ih =>
    obtain ⟨hp, hrest⟩ := List.forall_mem_cons.mp hpaths
    have hregistered : ∀ f ∈ (r.register p).1.files, d'.text? f.path = d.text? f.path :=
      fun f hf => (Registry.path_of_mem_register hf).elim (hfiles f) fun hpath => hpath ▸ hp
    have hsame : r.loadPath d' p = r.loadPath d p := by
      rw [Registry.loadPath_eq, Registry.loadPath_eq, Registry.load_congr hregistered]
    have hloaded : ∀ f ∈ (r.loadPath d p).1.files, d'.text? f.path = d.text? f.path := by
      intro f hf
      obtain ⟨g, hg, hpath⟩ := Registry.path_of_mem_loadPath hf
      exact hpath ▸ hregistered g hg
    rw [loadAll, loadAll, hsame]
    split
    · rename_i heq
      rw [heq] at hloaded
      exact ih hloaded hrest
    · rfl

end Command

end StubGen
