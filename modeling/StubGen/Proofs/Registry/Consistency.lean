import StubGen.Proofs.Registry.History

/-!
# What holds of a registry at any time

The table of files and the table of paths list the same files. Neither has a number twice, and
neither has a path twice, however it is written, so looking up a path and looking up a number
undo each other. Numbers are given out in order, each once; a file that is registered again
after its removal gets a new one.

The revision of a file moves by one when its text becomes another one, and at no other time. So
it never decreases while the file is registered, and it tells apart any two texts that the file
has had.
-/

namespace StubGen

/-- Two paths are the same if they have the same steps. -/
theorem Path.same_iff {p q : Path} : p.same q = true ↔ p.components = q.components := beq_iff_eq

namespace SourceFile

/-- What a single operation does to a file that stays registered: its text and revision stay, or
the text becomes another one and the revision moves by one. -/
def Revised (f g : SourceFile) : Prop :=
  g.text = f.text ∧ g.revision = f.revision ∨
    g.text ≠ f.text ∧ g.revision = f.revision + 1

/-- Nothing was done to a file that is as it was. -/
theorem Revised.refl (f : SourceFile) : f.Revised f := .inl ⟨rfl, rfl⟩

/-- Giving a file a text revises it. -/
theorem revised_withText (f : SourceFile) (text : String) : f.Revised (f.withText text) := by
  unfold withText
  by_cases hsame : f.text = text
  · rw [if_pos hsame]
    exact .refl f
  · rw [if_neg hsame]
    exact .inr ⟨Ne.symm hsame, rfl⟩

/-- What any number of operations does to a file that stays registered: the revision does not
decrease, and if it is the same, then so is the text. -/
structure Progressed (f g : SourceFile) : Prop where
  revision_le : f.revision ≤ g.revision
  text_eq : f.revision = g.revision → f.text = g.text

/-- A file as it was has progressed by nothing. -/
theorem Progressed.refl (f : SourceFile) : f.Progressed f := ⟨Nat.le_refl _, fun _ => rfl⟩

/-- Revising a file and progressing from there is progressing. -/
theorem Revised.progressed {f g h : SourceFile} (hfg : f.Revised g) (hgh : g.Progressed h) :
    f.Progressed h := by
  have hle := hgh.revision_le
  rcases hfg with ⟨htext, hrevision⟩ | ⟨-, hrevision⟩
  · exact ⟨by omega, fun heq => htext.symm.trans (hgh.text_eq (by omega))⟩
  · exact ⟨by omega, fun heq => absurd heq (by omega)⟩

end SourceFile

namespace Registry

variable {r : Registry}

/-- Both tables list the same files, by increasing numbers and under different paths. -/
structure Consistent (r : Registry) : Prop where
  numbered : r.Numbered
  paths_eq : r.paths = r.files.map fun f => (f.path, f.id)
  nodup_paths : (r.files.map (·.path.components)).Nodup

/-- The registry without files is consistent. -/
theorem consistent_empty : empty.Consistent := ⟨numbered_empty, rfl, List.nodup_nil⟩

/-- A file is found under its number. -/
theorem Numbered.get?_eq_some_iff (h : r.Numbered) {id : FileId} {f : SourceFile} :
    r.get? id = some f ↔ f ∈ r.files ∧ f.id = id := by
  constructor
  · intro hget
    exact ⟨List.mem_of_find?_eq_some hget, by simpa using List.find?_some hget⟩
  · rintro ⟨hf, rfl⟩
    have hsome : (r.get? f.id).isSome = true := List.find?_isSome.mpr ⟨f, hf, by simp⟩
    obtain ⟨g, hg⟩ := Option.isSome_iff_exists.mp hsome
    have hid : g.id = f.id := by simpa using List.find?_some hg
    rw [hg, h.eq_of_id_eq (List.mem_of_find?_eq_some hg) hf hid]

namespace Consistent

/-- Two files of one path are one file. -/
theorem eq_of_same (h : r.Consistent) {f g : SourceFile} (hf : f ∈ r.files) (hg : g ∈ r.files)
    (hsame : f.path.components = g.path.components) : f = g :=
  List.inj_on_of_nodup_map h.nodup_paths hf hg hsame

/-- A path is registered under a number exactly if the file of that number has the path. -/
theorem idOf?_eq_some_iff (h : r.Consistent) {p : Path} {id : FileId} :
    r.idOf? p = some id ↔ ∃ f, r.get? id = some f ∧ f.path.same p = true := by
  have hentry {entry : Path × FileId} (hmem : entry ∈ r.paths) :
      ∃ f ∈ r.files, (f.path, f.id) = entry := by
    rw [h.paths_eq] at hmem
    exact List.mem_map.mp hmem
  constructor
  · intro hid
    obtain ⟨entry, hfound, rfl⟩ := Option.map_eq_some_iff.mp hid
    obtain ⟨f, hf, rfl⟩ := hentry (List.mem_of_find?_eq_some hfound)
    have hsame := List.find?_some hfound
    exact ⟨f, h.numbered.get?_eq_some_iff.mpr ⟨hf, rfl⟩, hsame⟩
  · rintro ⟨f, hget, hsame⟩
    obtain ⟨hf, rfl⟩ := h.numbered.get?_eq_some_iff.mp hget
    have hlisted : (f.path, f.id) ∈ r.paths := h.paths_eq ▸ List.mem_map_of_mem hf
    have hsome : (r.paths.find? fun entry => entry.1.same p).isSome = true :=
      List.find?_isSome.mpr ⟨_, hlisted, hsame⟩
    obtain ⟨entry, hfound⟩ := Option.isSome_iff_exists.mp hsome
    obtain ⟨g, hg, rfl⟩ := hentry (List.mem_of_find?_eq_some hfound)
    have hother := List.find?_some hfound
    have hcomponents := (Path.same_iff.mp hother).trans (Path.same_iff.mp hsame).symm
    rw [idOf?, hfound, h.eq_of_same hg hf hcomponents]
    rfl

/-- A path that is not registered is none of the files' paths. -/
theorem not_same_of_idOf?_eq_none (h : r.Consistent) {p : Path} (hnone : r.idOf? p = none)
    {f : SourceFile} (hf : f ∈ r.files) : f.path.components ≠ p.components := by
  intro hsame
  have hget := h.numbered.get?_eq_some_iff.mpr ⟨hf, rfl⟩
  have hid := h.idOf?_eq_some_iff.mpr ⟨f, hget, Path.same_iff.mpr hsame⟩
  rw [hnone] at hid
  contradiction

/-- A change keeps the registry consistent. -/
theorem change {s : Registry} (h : r.Consistent) (hchange : Change r s) : s.Consistent := by
  have hnumbered := h.numbered.change hchange
  cases hchange with
  | append p hnone =>
    refine ⟨hnumbered, by simp [h.paths_eq], ?_⟩
    rw [List.map_append, List.map_singleton]
    refine h.nodup_paths.append (List.nodup_singleton _) ?_
    rw [List.disjoint_singleton]
    intro hmem
    obtain ⟨f, hf, hsame⟩ := List.mem_map.mp hmem
    exact h.not_same_of_idOf?_eq_none hnone hf hsame
  | replaceText file text =>
    have hpath (f : SourceFile) :
        (if f.id = file then f.withText text else f).path = f.path := by
      split
      · exact f.withText_path text
      · rfl
    have hid (f : SourceFile) : (if f.id = file then f.withText text else f).id = f.id := by
      split
      · exact f.withText_id text
      · rfl
    refine ⟨hnumbered, ?_, ?_⟩
    · rw [replaceText, List.map_map]
      simpa only [Function.comp_def, hpath, hid] using h.paths_eq
    · rw [replaceText, List.map_map]
      simpa only [Function.comp_def, hpath] using h.nodup_paths
  | remove file =>
    refine ⟨hnumbered, ?_, ?_⟩
    · unfold remove
      cases hget : r.get? file with
      | none => exact h.paths_eq
      | some f =>
        obtain ⟨hf, rfl⟩ := h.numbered.get?_eq_some_iff.mp hget
        -- The entry that goes from the table of paths is that of the file, for no other file
        -- has its path.
        have hkept (g : SourceFile) (hg : g ∈ r.files) :
            (!g.path.same f.path) = (g.id != f.id) := by
          rw [Bool.eq_iff_iff]
          simp only [Bool.not_eq_true', Bool.eq_false_iff, ne_eq, Path.same_iff, bne_iff_ne]
          refine not_congr ⟨fun hsame => ?_, fun hid => ?_⟩
          · rw [h.eq_of_same hg hf hsame]
          · rw [h.numbered.eq_of_id_eq hg hf hid]
        show r.paths.filter _ = (r.files.filter _).map _
        rw [h.paths_eq, List.filter_map]
        exact congrArg _ (List.filter_congr hkept)
    · rw [files_remove]
      exact h.nodup_paths.sublist (List.filter_sublist.map _)

/-- Any number of changes keeps the registry consistent. -/
theorem changes {s : Registry} (h : r.Consistent) (hchanges : Changes r s) : s.Consistent := by
  induction hchanges with
  | refl => exact h
  | tail _ hstep ih => exact ih.change hstep

end Consistent

/-- The registry after operations. -/
def after (r : Registry) (operations : List Operation) : Registry :=
  operations.foldl (fun s operation => operation.apply s) r

/-- A history is made of changes. -/
theorem changes_after (r : Registry) (operations : List Operation) :
    Changes r (r.after operations) := by
  induction operations generalizing r with
  | nil => exact .refl
  | cons operation rest ih => exact (changes_apply r operation).trans (ih (operation.apply r))

/-- The path that an operation registers. -/
def Operation.path? : Operation → Option Path
  | register path => some path
  | add path _ => some path
  | loadPath _ path => some path
  | setText .. => none
  | load .. => none
  | remove .. => none

/-- The number that an operation gives out: that of a path which was not registered. -/
def Operation.issued? (r : Registry) (operation : Operation) : Option FileId :=
  operation.path?.bind fun p => if r.idOf? p = none then some (r.register p).2 else none

/-- The numbers that operations give out, in order. -/
def issued (r : Registry) : List Operation → List FileId
  | [] => []
  | operation :: rest => (operation.issued? r).toList ++ (operation.apply r).issued rest

/-- Giving a text to a file at most. -/
def Retexted (r s : Registry) : Prop := s = r ∨ ∃ file text, s = r.replaceText file text

/-- Setting a text gives a text to a file at most. -/
theorem retexted_setText (r : Registry) (file : FileId) (text : String) :
    r.Retexted (r.setText file text).1 := by
  rw [setText_eq]
  cases r.get? file with
  | some _ => exact .inr ⟨file, text, rfl⟩
  | none => exact .inl rfl

/-- Loading gives a text to a file at most. -/
theorem retexted_load (r : Registry) (disk : Disk) (file : FileId) :
    r.Retexted (r.load disk file).1 := by
  rw [load_eq]
  cases r.get? file with
  | none => exact .inl rfl
  | some f =>
    dsimp only
    cases disk.text? f.path with
    | none => exact .inl rfl
    | some text => exact .inr ⟨file, text, rfl⟩

/-- Loading a path registers it and gives a text to a file at most. -/
theorem retexted_loadPath (r : Registry) (disk : Disk) (p : Path) :
    (r.register p).1.Retexted (r.loadPath disk p).1 := by
  rw [loadPath_eq]
  exact retexted_load (r.register p).1 disk (r.register p).2

/-- What an operation does: it registers its path, or removes a file, or does neither, and gives
a text to a file at most. -/
theorem Operation.apply_cases (r : Registry) (operation : Operation) :
    (∃ p, operation.path? = some p ∧ (r.register p).1.Retexted (operation.apply r)) ∨
      operation.path? = none ∧
        (r.Retexted (operation.apply r) ∨ ∃ file, operation.apply r = (r.remove file).1) := by
  cases operation with
  | register p => exact .inl ⟨p, rfl, .inl rfl⟩
  | add p text => exact .inl ⟨p, rfl, .inr ⟨_, text, rfl⟩⟩
  | loadPath disk p => exact .inl ⟨p, rfl, retexted_loadPath r disk p⟩
  | setText file text => exact .inr ⟨rfl, .inl (retexted_setText r file text)⟩
  | load disk file => exact .inr ⟨rfl, .inl (retexted_load r disk file)⟩
  | remove file => exact .inr ⟨rfl, .inr ⟨file, rfl⟩⟩

/-- Giving out numbers does not depend on texts. -/
theorem Retexted.next_eq {s : Registry} (h : r.Retexted s) : s.next = r.next := by
  rcases h with rfl | ⟨file, text, rfl⟩ <;> rfl

/-- An operation gives out the next number and moves on to the one after it, or does neither. -/
theorem Operation.issued?_cases (r : Registry) (operation : Operation) :
    operation.issued? r = some ⟨r.next⟩ ∧ (operation.apply r).next = r.next + 1 ∨
      operation.issued? r = none ∧ (operation.apply r).next = r.next := by
  unfold issued?
  rcases operation.apply_cases r with ⟨p, hpath, hrest⟩ | ⟨hpath, hrest⟩
  · rw [hpath, Option.bind_some, hrest.next_eq]
    cases hid : r.idOf? p with
    | none =>
      rw [register_of_none hid]
      exact .inl ⟨if_pos rfl, rfl⟩
    | some id =>
      rw [register_of_some hid]
      exact .inr ⟨if_neg (by simp), rfl⟩
  · rw [hpath, Option.bind_none]
    rcases hrest with hretexted | ⟨file, hremoved⟩
    · exact .inr ⟨rfl, hretexted.next_eq⟩
    · exact .inr ⟨rfl, hremoved ▸ next_remove r file⟩

/-- The numbers given out are those from the next one on, in order, each once. -/
theorem issued_eq_range' (r : Registry) (operations : List Operation) :
    ∃ count, (r.after operations).next = r.next + count ∧
      r.issued operations = (List.range' r.next count).map FileId.mk := by
  induction operations generalizing r with
  | nil => exact ⟨0, rfl, rfl⟩
  | cons operation rest ih =>
    obtain ⟨count, hnext, hissued⟩ := ih (operation.apply r)
    have hafter : r.after (operation :: rest) = (operation.apply r).after rest := rfl
    rw [issued, hissued, hafter, hnext]
    rcases operation.issued?_cases r with ⟨hgiven, hmoved⟩ | ⟨hgiven, hmoved⟩
    · refine ⟨count + 1, by omega, ?_⟩
      rw [hgiven, hmoved, List.range'_succ]
      rfl
    · refine ⟨count, by omega, ?_⟩
      rw [hgiven, hmoved]
      rfl

/-- Giving texts revises the files that are there. -/
theorem Retexted.revised {s : Registry} (h : r.Retexted s) (hr : r.Numbered) {f g : SourceFile}
    (hf : f ∈ r.files) (hg : g ∈ s.files) (hid : f.id = g.id) : f.Revised g := by
  rcases h with rfl | ⟨file, text, rfl⟩
  · rw [hr.eq_of_id_eq hf hg hid]
    exact .refl g
  · obtain ⟨e, he, rfl⟩ := List.mem_map.mp hg
    by_cases hfile : e.id = file
    · rw [if_pos hfile] at hid ⊢
      rw [hr.eq_of_id_eq hf he (hid.trans (e.withText_id text))]
      exact e.revised_withText text
    · rw [if_neg hfile] at hid ⊢
      rw [hr.eq_of_id_eq hf he hid]
      exact .refl e

/-- Registering a path leaves the files that are there. -/
theorem mem_register (r : Registry) (p : Path) {f : SourceFile} (hf : f ∈ r.files) :
    f ∈ (r.register p).1.files := by
  cases hid : r.idOf? p with
  | some id => rwa [register_of_some hid]
  | none =>
    rw [register_of_none hid]
    exact List.mem_append_left _ hf

/-- An operation revises every file that stays registered. -/
theorem Operation.revised (hr : r.Numbered) (operation : Operation) {f g : SourceFile}
    (hf : f ∈ r.files) (hg : g ∈ (operation.apply r).files) (hid : f.id = g.id) :
    f.Revised g := by
  rcases operation.apply_cases r with ⟨p, -, hrest⟩ | ⟨-, hretexted | ⟨file, hremoved⟩⟩
  · exact hrest.revised (hr.changes (changes_register r p)) (mem_register r p hf) hg hid
  · exact hretexted.revised hr hf hg hid
  · rw [hremoved, files_remove] at hg
    rw [hr.eq_of_id_eq hf (List.mem_filter.mp hg).1 hid]
    exact .refl g

/-- Over any history, a file that is still or again found under its number has progressed. It has
been registered all the time, for its number was not given out again. -/
theorem progressed_after (hr : r.Numbered) (operations : List Operation) {f g : SourceFile}
    (hf : f ∈ r.files) (hg : g ∈ (r.after operations).files) (hid : f.id = g.id) :
    f.Progressed g := by
  induction operations generalizing r f with
  | nil =>
    rw [hr.eq_of_id_eq hf hg hid]
    exact .refl g
  | cons operation rest ih =>
    have hstep := changes_apply r operation
    have hnext := (Continues.of_changes hstep).next_le
    have hlater := Continues.of_changes (changes_after (operation.apply r) rest)
    obtain ⟨e, he, heid, -⟩ := hlater.same_path g hg (by
      have := hr.below f hf
      rw [← hid]
      omega)
    have hrevised := operation.revised hr hf he (hid.trans heid.symm)
    exact hrevised.progressed (ih (hr.changes hstep) he hg heid)

/-- No counter has gone past a number. -/
structure CountedTo (r : Registry) (count : Nat) : Prop where
  next_le : r.next ≤ count
  revision_le : ∀ f ∈ r.files, f.revision ≤ count

/-- Giving texts moves a revision by one at most. -/
theorem Retexted.revision_le {s : Registry} {count : Nat} (h : r.Retexted s)
    (hr : ∀ f ∈ r.files, f.revision ≤ count) : ∀ g ∈ s.files, g.revision ≤ count + 1 := by
  intro g hg
  rcases h with rfl | ⟨file, text, rfl⟩
  · exact Nat.le_succ_of_le (hr g hg)
  · obtain ⟨f, hf, rfl⟩ := List.mem_map.mp hg
    have hle := hr f hf
    split
    · rcases f.revised_withText text with ⟨-, hrevision⟩ | ⟨-, hrevision⟩ <;> omega
    · omega

/-- A path that is registered has the revision zero if it is new. -/
theorem revision_register {count : Nat} (hr : ∀ f ∈ r.files, f.revision ≤ count) (p : Path) :
    ∀ f ∈ (r.register p).1.files, f.revision ≤ count := by
  cases hid : r.idOf? p with
  | some id => rwa [register_of_some hid]
  | none =>
    rw [register_of_none hid]
    refine List.forall_mem_append.mpr ⟨hr, fun f hf => ?_⟩
    obtain rfl := List.mem_singleton.mp hf
    exact Nat.zero_le count

/-- An operation moves each counter by one at most. -/
theorem CountedTo.apply {count : Nat} (h : r.CountedTo count) (operation : Operation) :
    (operation.apply r).CountedTo (count + 1) := by
  refine ⟨?_, ?_⟩
  · have hle := h.next_le
    rcases operation.issued?_cases r with ⟨-, hnext⟩ | ⟨-, hnext⟩ <;> omega
  · rcases operation.apply_cases r with ⟨p, -, hrest⟩ | ⟨-, hretexted | ⟨file, hremoved⟩⟩
    · exact hrest.revision_le (revision_register h.revision_le p)
    · exact hretexted.revision_le h.revision_le
    · intro f hf
      rw [hremoved, files_remove] at hf
      exact Nat.le_succ_of_le (h.revision_le f (List.mem_filter.mp hf).1)

/-- A history moves each counter as often as it has operations, at most. -/
theorem CountedTo.after {count : Nat} (h : r.CountedTo count) (operations : List Operation) :
    (r.after operations).CountedTo (count + operations.length) := by
  induction operations generalizing r count with
  | nil => exact h
  | cons operation rest ih =>
    have hrest := ih (h.apply operation)
    rwa [Nat.add_right_comm, Nat.add_assoc] at hrest

/-- Fewer than `2 ^ 32` operations keep all counters within 32 bits. -/
theorem counters_lt_of_length_lt {operations : List Operation}
    (h : operations.length < UInt32.size) :
    (empty.after operations).next < UInt32.size ∧
      ∀ f ∈ (empty.after operations).files, f.id.index < UInt32.size ∧ f.revision < UInt32.size := by
  have hempty : empty.CountedTo 0 := ⟨Nat.le_refl _, fun f hf => absurd hf List.not_mem_nil⟩
  obtain ⟨hnext, hrevision⟩ := hempty.after operations
  have hnumbered := numbered_empty.changes (changes_after empty operations)
  refine ⟨by omega, fun f hf => ⟨?_, ?_⟩⟩
  · have hbelow := hnumbered.below f hf
    omega
  · have hle := hrevision f hf
    omega

/-- What holds of a registry after any history that starts without files. Path and number are
looked up in tables that list the same files, without a path or a number twice, so the look-ups
undo each other. All numbers are below the next one. The numbers given out are `0`, `1`, … up to
the next one, each once, and the files are listed in this order. An operation changes the
revision of a file by one if it changes its text, and leaves it otherwise. At any later time, a
file of the same number has the same path, no smaller revision, and the same text if the
revision is the same. -/
theorem consistent_after (operations : List Operation) :
    (∀ p id, (empty.after operations).idOf? p = some id ↔
        ∃ f, (empty.after operations).get? id = some f ∧ f.path.same p = true) ∧
      (empty.after operations).paths =
        (empty.after operations).files.map (fun f => (f.path, f.id)) ∧
      ((empty.after operations).files.map (·.path.components)).Nodup ∧
      (∀ f ∈ (empty.after operations).files, f.id.index < (empty.after operations).next) ∧
      empty.issued operations =
        (List.range (empty.after operations).next).map FileId.mk ∧
      (empty.after operations).files.Pairwise (fun f g => f.id.index < g.id.index) ∧
      (∀ operation : Operation, ∀ f ∈ (empty.after operations).files,
        ∀ g ∈ (operation.apply (empty.after operations)).files, f.id = g.id → f.Revised g) ∧
      ∀ later, ∀ f ∈ (empty.after operations).files,
        ∀ g ∈ ((empty.after operations).after later).files, f.id = g.id →
          f.path = g.path ∧ f.revision ≤ g.revision ∧
            (f.revision = g.revision → f.text = g.text) := by
  have hconsistent : (empty.after operations).Consistent :=
    consistent_empty.changes (changes_after empty operations)
  have hnumbered := hconsistent.numbered
  refine ⟨fun p id => hconsistent.idOf?_eq_some_iff, hconsistent.paths_eq,
    hconsistent.nodup_paths, hnumbered.below, ?_, hnumbered.increasing,
    fun operation f hf g hg => operation.revised hnumbered hf hg, fun later f hf g hg hid => ?_⟩
  · obtain ⟨count, hnext, hissued⟩ := issued_eq_range' empty operations
    have hzero : empty.next = 0 := rfl
    rw [hissued, hnext, hzero, Nat.zero_add, List.range_eq_range']
  · have hcontinues := Continues.of_changes (changes_after (empty.after operations) later)
    have hprogressed := progressed_after hnumbered later hf hg hid
    exact ⟨hcontinues.path_eq hnumbered hf hg hid, hprogressed.revision_le, hprogressed.text_eq⟩

end Registry

end StubGen
