import Mathlib.Data.List.Nodup
import Mathlib.Logic.Relation
import StubGen.Registry

/-!
# Registries over time

Every operation on a registry is made of three kinds of change: a new file at the end, a
new text for a number, and the removal of a number. What holds of a registry at any time
is proved once for these changes and follows for every history of operations.

Nothing is assumed about the disks that files are loaded from: each load reads a disk of
its own, and it may fail.
-/

namespace StubGen

/-- A new text leaves the number of a file. -/
@[simp] theorem SourceFile.withText_id (f : SourceFile) (text : String) :
    (f.withText text).id = f.id := by
  unfold withText
  split <;> rfl

/-- A new text leaves the path of a file. -/
@[simp] theorem SourceFile.withText_path (f : SourceFile) (text : String) :
    (f.withText text).path = f.path := by
  unfold withText
  split <;> rfl

namespace Registry

/-- An operation on a registry. A load carries the disk as it is at that moment. -/
inductive Operation where
  | register (path : Path)
  | add (path : Path) (text : String)
  | setText (file : FileId) (text : String)
  | load (disk : Disk) (file : FileId)
  | loadPath (disk : Disk) (path : Path)
  | remove (file : FileId)
deriving Inhabited

/-- The registry after an operation, whether the operation succeeds or fails. -/
def Operation.apply (r : Registry) : Operation → Registry
  | register path => (r.register path).1
  | add path text => (r.add path text).1
  | setText file text => (r.setText file text).1
  | load disk file => (r.load disk file).1
  | loadPath disk path => (r.loadPath disk path).1
  | remove file => (r.remove file).1

/-- A single change of a registry. -/
inductive Change : Registry → Registry → Prop
  /-- A path that is not registered yet gets the next number. -/
  | append (r : Registry) (p : Path) (h : r.idOf? p = none) :
      Change r
        { files := r.files ++ [{ id := ⟨r.next⟩, path := p }], paths := r.paths ++ [(p, ⟨r.next⟩)]
          next := r.next + 1 }
  | replaceText (r : Registry) (file : FileId) (text : String) :
      Change r (r.replaceText file text)
  | remove (r : Registry) (file : FileId) : Change r (r.remove file).1

/-- Any number of changes, one after the other. -/
abbrev Changes : Registry → Registry → Prop := Relation.ReflTransGen Change

/-- Registering a registered path changes nothing. -/
theorem register_of_some {r : Registry} {p : Path} {id : FileId} (h : r.idOf? p = some id) :
    r.register p = (r, id) := by
  rw [register, h]

/-- Registering any other path appends a file without text, under the next number. -/
theorem register_of_none {r : Registry} {p : Path} (h : r.idOf? p = none) :
    r.register p =
      ({ files := r.files ++ [{ id := ⟨r.next⟩, path := p, text := "", revision := 0 }]
         paths := r.paths ++ [(p, ⟨r.next⟩)]
         next := r.next + 1 }, ⟨r.next⟩) := by
  rw [register, h]

/-- Registering changes nothing or appends one file. -/
theorem changes_register (r : Registry) (p : Path) : Changes r (r.register p).1 := by
  cases h : r.idOf? p with
  | some id => rw [register_of_some h]
  | none =>
    rw [register_of_none h]
    exact .single (.append r p h)

/-- Setting a text needs a file of the number. -/
theorem setText_eq (r : Registry) (file : FileId) (text : String) :
    r.setText file text =
      match r.get? file with
      | some _ => (r.replaceText file text, .ok ())
      | none => (r, .error (.fileNotFound file)) := by
  rw [setText, Registry.file]
  cases r.get? file <;> rfl

/-- Loading a file needs a file of the number, and a text under its path. -/
theorem load_eq (r : Registry) (disk : Disk) (file : FileId) :
    r.load disk file =
      match r.get? file with
      | none => (r, .error (.fileNotFound file))
      | some f =>
        match disk.text? f.path with
        | some text => (r.replaceText file text, .ok ())
        | none => (r, .error (.unreadable f.path)) := by
  rw [load, path, Registry.file]
  cases hget : r.get? file with
  | none => rfl
  | some f =>
    dsimp only [Except.map]
    cases disk.text? f.path with
    | none => rfl
    | some text =>
      dsimp only
      rw [setText_eq, hget]

/-- Loading a path is registering it and loading its file. -/
theorem loadPath_eq (r : Registry) (disk : Disk) (p : Path) :
    r.loadPath disk p =
      (((r.register p).1.load disk (r.register p).2).1,
        ((r.register p).1.load disk (r.register p).2).2.map fun _ => (r.register p).2) := by
  simp only [loadPath]
  rcases r.register p with ⟨registered, id⟩
  rcases registered.load disk id with ⟨loaded, _ | _⟩ <;> rfl

/-- Setting a text changes nothing or gives the file of a number its text. -/
theorem changes_setText (r : Registry) (file : FileId) (text : String) :
    Changes r (r.setText file text).1 := by
  rw [setText_eq]
  cases r.get? file with
  | some _ => exact .single (.replaceText r file text)
  | none => exact .refl

/-- Loading changes nothing or sets a text. -/
theorem changes_load (r : Registry) (disk : Disk) (file : FileId) :
    Changes r (r.load disk file).1 := by
  rw [load_eq]
  cases r.get? file with
  | none => exact .refl
  | some f =>
    dsimp only
    cases disk.text? f.path with
    | none => exact .refl
    | some text => exact .single (.replaceText r file text)

/-- Loading a path registers it and then loads it. -/
theorem changes_loadPath (r : Registry) (disk : Disk) (p : Path) :
    Changes r (r.loadPath disk p).1 := by
  rw [loadPath_eq]
  exact (changes_register r p).trans (changes_load (r.register p).1 disk (r.register p).2)

/-- Every operation is made of changes. -/
theorem changes_apply (r : Registry) (operation : Operation) : Changes r (operation.apply r) := by
  cases operation with
  | register p => exact changes_register r p
  | add p text => exact (changes_register r p).tail (.replaceText _ _ text)
  | setText file text => exact changes_setText r file text
  | load disk file => exact changes_load r disk file
  | loadPath disk p => exact changes_loadPath r disk p
  | remove file => exact .single (.remove r file)

/-- A new text leaves the number and the path of every file as they are. -/
theorem mem_replaceText {r : Registry} {file : FileId} {text : String} {f : SourceFile}
    (h : f ∈ (r.replaceText file text).files) :
    ∃ g ∈ r.files, g.id = f.id ∧ g.path = f.path := by
  obtain ⟨g, hg, rfl⟩ := List.mem_map.mp h
  refine ⟨g, hg, ?_⟩
  split
  · exact ⟨(g.withText_id text).symm, (g.withText_path text).symm⟩
  · exact ⟨rfl, rfl⟩

/-- Removing a number leaves the files of the others. -/
@[simp] theorem files_remove (r : Registry) (file : FileId) :
    (r.remove file).1.files = r.files.filter (·.id != file) := by
  unfold remove
  cases hget : r.get? file with
  | some f => rfl
  | none =>
    refine (List.filter_eq_self.mpr fun f hf => ?_).symm
    have hne := List.find?_eq_none.mp hget f hf
    simpa using hne

/-- Removing a number gives none back. -/
@[simp] theorem next_remove (r : Registry) (file : FileId) : (r.remove file).1.next = r.next := by
  unfold remove
  cases r.get? file <;> rfl

/-- The numbers of the files increase and stay below the next number. -/
structure Numbered (r : Registry) : Prop where
  increasing : r.files.Pairwise fun f g => f.id.index < g.id.index
  below : ∀ f ∈ r.files, f.id.index < r.next

/-- No number stands for two files. -/
theorem Numbered.nodup_ids {r : Registry} (hr : r.Numbered) : (r.files.map (·.id)).Nodup :=
  List.pairwise_map.mpr (hr.increasing.imp fun hlt heq =>
    absurd (congrArg FileId.index heq) (Nat.ne_of_lt hlt))

/-- Two files of one number are one file. -/
theorem Numbered.eq_of_id_eq {r : Registry} (hr : r.Numbered) {f g : SourceFile}
    (hf : f ∈ r.files) (hg : g ∈ r.files) (h : f.id = g.id) : f = g :=
  List.inj_on_of_nodup_map hr.nodup_ids hf hg h

/-- The registry without files is numbered. -/
theorem numbered_empty : empty.Numbered := ⟨List.Pairwise.nil, by simp [empty]⟩

/-- A change keeps the files numbered. -/
theorem Numbered.change {r s : Registry} (hr : r.Numbered) (h : Change r s) : s.Numbered := by
  cases h with
  | append p _ =>
    refine ⟨List.pairwise_append.mpr ⟨hr.increasing, List.pairwise_singleton _ _, ?_⟩, ?_⟩
    · intro f hf g hg
      obtain rfl := List.mem_singleton.mp hg
      exact hr.below f hf
    · intro f hf
      rcases List.mem_append.mp hf with hf | hf
      · exact Nat.lt_succ_of_lt (hr.below f hf)
      · obtain rfl := List.mem_singleton.mp hf
        exact Nat.lt_succ_self _
  | replaceText file text =>
    have hid : ∀ f : SourceFile, (if f.id = file then f.withText text else f).id = f.id := by
      intro f
      split
      · exact f.withText_id text
      · rfl
    refine ⟨List.pairwise_map.mpr (hr.increasing.imp fun hlt => ?_), ?_⟩
    · simpa only [hid] using hlt
    · intro f hf
      obtain ⟨g, hg, hgf, _⟩ := mem_replaceText hf
      exact hgf ▸ hr.below g hg
  | remove file =>
    refine ⟨?_, fun f hf => ?_⟩
    · rw [files_remove]
      exact hr.increasing.filter _
    · rw [files_remove] at hf
      rw [next_remove]
      exact hr.below f (List.mem_filter.mp hf).1

/-- Any number of changes keeps the files numbered. -/
theorem Numbered.changes {r s : Registry} (hr : r.Numbered) (h : Changes r s) : s.Numbered := by
  induction h with
  | refl => exact hr
  | tail _ hstep ih => exact ih.change hstep

/-- A later registry of one history: no number is taken back, and a number that was given
out before still belongs to the same path if it belongs to any. -/
structure Continues (earlier later : Registry) : Prop where
  next_le : earlier.next ≤ later.next
  same_path : ∀ f ∈ later.files, f.id.index < earlier.next →
    ∃ g ∈ earlier.files, g.id = f.id ∧ g.path = f.path

/-- Every registry continues itself. -/
theorem Continues.refl (r : Registry) : r.Continues r :=
  ⟨Nat.le_refl _, fun f hf _ => ⟨f, hf, rfl, rfl⟩⟩

/-- A continuation of a continuation is a continuation. -/
theorem Continues.trans {r s t : Registry} (hrs : r.Continues s) (hst : s.Continues t) :
    r.Continues t := by
  refine ⟨Nat.le_trans hrs.next_le hst.next_le, fun f hf hlt => ?_⟩
  obtain ⟨g, hg, hgid, hgpath⟩ := hst.same_path f hf (Nat.lt_of_lt_of_le hlt hrs.next_le)
  obtain ⟨e, he, heid, hepath⟩ := hrs.same_path g hg (hgid ▸ hlt)
  exact ⟨e, he, heid.trans hgid, hepath.trans hgpath⟩

/-- A change continues the registry. -/
theorem Continues.of_change {r s : Registry} (h : Change r s) : r.Continues s := by
  cases h with
  | append p _ =>
    refine ⟨Nat.le_succ _, fun f hf hlt => ?_⟩
    rcases List.mem_append.mp hf with hf | hf
    · exact ⟨f, hf, rfl, rfl⟩
    · obtain rfl := List.mem_singleton.mp hf
      exact absurd hlt (Nat.lt_irrefl _)
  | replaceText file text => exact ⟨Nat.le_refl _, fun f hf _ => mem_replaceText hf⟩
  | remove file =>
    refine ⟨Nat.le_of_eq (next_remove r file).symm, fun f hf _ => ?_⟩
    rw [files_remove] at hf
    exact ⟨f, (List.mem_filter.mp hf).1, rfl, rfl⟩

/-- Any number of changes continues the registry. -/
theorem Continues.of_changes {r s : Registry} (h : Changes r s) : r.Continues s := by
  induction h with
  | refl => exact .refl r
  | tail _ hstep ih => exact ih.trans (.of_change hstep)

/-- Over a history, one number means one path. -/
theorem Continues.path_eq {r s : Registry} (h : r.Continues s) (hr : r.Numbered)
    {f g : SourceFile} (hf : f ∈ r.files) (hg : g ∈ s.files) (hid : f.id = g.id) :
    f.path = g.path := by
  obtain ⟨e, he, heid, hepath⟩ := h.same_path g hg (hid ▸ hr.below f hf)
  rw [hr.eq_of_id_eq hf he (hid.trans heid.symm), hepath]

end Registry

end StubGen
