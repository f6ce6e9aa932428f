import StubGen.Proofs.Registry.Consistency

/-!
# Failing operations on registries

Three operations can fail. Setting a text and loading a file look first and change the registry
only when nothing can go wrong any more, so a failure leaves it as it was. Loading a path
registers the path before it reads the file, and nothing takes that back: if the file cannot be
read, then a path that was not registered stays behind, with the empty text.
-/

namespace StubGen

namespace Registry

/-- The registries that a history of operations can lead to. -/
def Reachable (r : Registry) : Prop := ∃ operations, empty.after operations = r

/-- The path that is read when a path is loaded: as it was first written, if it is registered. -/
def pathToLoad (r : Registry) (p : Path) : Path := ((r.idOf? p).bind r.get?).elim p (·.path)

variable {r : Registry}

/-- A history leads to consistent registries. -/
theorem Reachable.consistent (h : r.Reachable) : r.Consistent := by
  obtain ⟨operations, rfl⟩ := h
  exact consistent_empty.changes (changes_after empty operations)

/-- After a path is registered, its file is found under its number. -/
theorem Consistent.exists_get?_register (h : r.Consistent) (p : Path) :
    ∃ f, (r.register p).1.get? (r.register p).2 = some f ∧ f.path = r.pathToLoad p := by
  cases hid : r.idOf? p with
  | some id =>
    obtain ⟨f, hget, -⟩ := h.idOf?_eq_some_iff.mp hid
    rw [register_of_some hid]
    refine ⟨f, hget, ?_⟩
    rw [pathToLoad, hid, Option.bind_some, hget]
    rfl
  | none =>
    have hnumbered := h.numbered.changes (changes_register r p)
    rw [register_of_none hid] at hnumbered ⊢
    refine ⟨_, hnumbered.get?_eq_some_iff.mpr ⟨List.mem_append_right _ List.mem_cons_self, rfl⟩, ?_⟩
    rw [pathToLoad, hid]
    rfl

/-- A failure to set a text changes nothing. -/
theorem fst_setText_of_error {file : FileId} {text : String} {e : RegistryError}
    (h : (r.setText file text).2 = .error e) : (r.setText file text).1 = r := by
  rw [setText_eq] at h ⊢
  cases hget : r.get? file with
  | none => rfl
  | some f =>
    rw [hget] at h
    contradiction

/-- A failure to load a file changes nothing. -/
theorem fst_load_of_error {disk : Disk} {file : FileId} {e : RegistryError}
    (h : (r.load disk file).2 = .error e) : (r.load disk file).1 = r := by
  rw [load_eq] at h ⊢
  cases hget : r.get? file with
  | none => rfl
  | some f =>
    dsimp only
    cases htext : disk.text? f.path with
    | none => rfl
    | some text =>
      simp only [hget, htext] at h
      contradiction

/-- Loading a path fails exactly if there is no text where it is read, and then the path is
registered and nothing else happened. -/
theorem Consistent.loadPath_cases (h : r.Consistent) (disk : Disk) (p : Path) :
    (disk.text? (r.pathToLoad p) = none ∧
        r.loadPath disk p = ((r.register p).1, .error (.unreadable (r.pathToLoad p)))) ∨
      ∃ text, disk.text? (r.pathToLoad p) = some text ∧
        (r.loadPath disk p).2 = .ok (r.register p).2 := by
  obtain ⟨f, hget, hpath⟩ := h.exists_get?_register p
  rw [loadPath_eq, load_eq, hget, ← hpath]
  dsimp only
  cases disk.text? f.path with
  | none => exact .inl ⟨rfl, rfl⟩
  | some text => exact .inr ⟨text, rfl, rfl⟩

/-- A failing operation registers a path at most. If setting a text or loading a file fails, the
registry is as it was, and so it is if loading a path that is registered fails. If loading any
other path fails, the path stays registered under the next number, with the empty text and as
never changed, and nothing else is different. Loading a path fails exactly if there is no file
with a valid text where it is read. -/
theorem failure_registers_at_most (h : r.Reachable) :
    (∀ file text e, (r.setText file text).2 = .error e → (r.setText file text).1 = r) ∧
      (∀ disk file e, (r.load disk file).2 = .error e → (r.load disk file).1 = r) ∧
      (∀ disk p e, (r.loadPath disk p).2 = .error e →
        (r.idOf? p ≠ none → (r.loadPath disk p).1 = r) ∧
        (r.idOf? p = none → (r.loadPath disk p).1 =
          { files := r.files ++ [{ id := ⟨r.next⟩, path := p, text := "", revision := 0 }]
            paths := r.paths ++ [(p, ⟨r.next⟩)]
            next := r.next + 1 })) ∧
      ∀ disk p, (∃ e, (r.loadPath disk p).2 = .error e) ↔ disk.text? (r.pathToLoad p) = none := by
  refine ⟨fun file text e => fst_setText_of_error, fun disk file e => fst_load_of_error,
    fun disk p e herror => ?_, fun disk p => ?_⟩
  · have hregistered : (r.loadPath disk p).1 = (r.register p).1 := by
      rcases h.consistent.loadPath_cases disk p with ⟨-, hfails⟩ | ⟨text, -, hloads⟩
      · rw [hfails]
      · rw [hloads] at herror
        contradiction
    rw [hregistered]
    refine ⟨fun hknown => ?_, fun hnew => ?_⟩
    · obtain ⟨id, hid⟩ := Option.ne_none_iff_exists'.mp hknown
      rw [register_of_some hid]
    · rw [register_of_none hnew]
  · rcases h.consistent.loadPath_cases disk p with ⟨hnone, hfails⟩ | ⟨text, hsome, hloads⟩
    · rw [hfails, hnone]
      exact iff_of_true ⟨_, rfl⟩ rfl
    · rw [hloads, hsome]
      exact iff_of_false (by simp) (by simp)

/-- A disk that holds nothing but its working directory. -/
def emptyDisk : Disk := .ofWorking ["home"] .empty

/-- A registry that holds one file with a text. -/
def oneFile : Registry := empty.after [.add ⟨"src/A.cs"⟩ "class A \x7b\x7d"]

/-- Setting the text of an unknown number, loading a file that is gone and loading its path once
more, spelled differently, leave the registry as it was; loading a path that is not registered
and that does not exist registers it. -/
theorem failure_registers_at_most_oneFile :
    oneFile.Reachable ∧ (oneFile.setText ⟨7⟩ "").1 = oneFile ∧
      (oneFile.load emptyDisk ⟨0⟩).1 = oneFile ∧
      (oneFile.loadPath emptyDisk ⟨"src//A.cs"⟩).1 = oneFile ∧
      (oneFile.loadPath emptyDisk ⟨"B.cs"⟩).1.files =
        oneFile.files ++ [{ id := ⟨1⟩, path := ⟨"B.cs"⟩, text := "", revision := 0 }] := by
  have hreachable : oneFile.Reachable := ⟨_, rfl⟩
  obtain ⟨hset, hload, hpath, -⟩ := failure_registers_at_most hreachable
  refine ⟨hreachable, hset ⟨7⟩ "" (.fileNotFound ⟨7⟩) (by decide +kernel),
    hload emptyDisk ⟨0⟩ (.unreadable ⟨"src/A.cs"⟩) (by decide +kernel),
    (hpath emptyDisk ⟨"src//A.cs"⟩ (.unreadable ⟨"src/A.cs"⟩) (by decide +kernel)).1
      (by decide +kernel), ?_⟩
  rw [(hpath emptyDisk ⟨"B.cs"⟩ (.unreadable ⟨"B.cs"⟩) (by decide +kernel)).2 (by decide +kernel)]
  rfl

/-- A path that could not be loaded is registered afterwards, although it was not before. -/
theorem loadPath_failed_not_unchanged :
    empty.Reachable ∧
      (empty.loadPath emptyDisk ⟨"gone.cs"⟩).2 = .error (.unreadable ⟨"gone.cs"⟩) ∧
      (empty.loadPath emptyDisk ⟨"gone.cs"⟩).1 ≠ empty :=
  ⟨⟨[], rfl⟩, by decide +kernel, by decide +kernel⟩

end Registry

end StubGen
