import StubGen.Proofs.Generator.Result
import StubGen.Proofs.Path.Components

/-!
# Names of generated files

The name of a generated file is made of the names of a type and a method, a number and an
ending. As long as no type and no method has a slash in its name it is a name that a path can
lead to, so the file can stand in the directory of its generator.
-/

namespace StubGen

open StubGen.Path (IsName)

namespace FileName

variable {typeName memberName suffix : String}

/-- A numbered name has a slash only if one of its parts has. -/
theorem no_slash_numbered (htype : '/' ∉ typeName.toList) (hmember : '/' ∉ memberName.toList)
    (hsuffix : '/' ∉ suffix.toList) (n : Nat) :
    '/' ∉ (numbered typeName memberName suffix n).toList := by
  have hdigits : '/' ∉ Nat.toDigits 10 n := not_mem_toDigits (by decide) n
  simp [numbered, htype, hmember, hsuffix, hdigits]

/-- The name that is chosen has a slash only if one of its parts has. -/
theorem no_slash_choose (taken : List String) (htype : '/' ∉ typeName.toList)
    (hmember : '/' ∉ memberName.toList) (hsuffix : '/' ∉ suffix.toList) :
    '/' ∉ (choose taken typeName memberName suffix).toList := by
  unfold choose
  split
  · simp [ofType, htype, hsuffix]
  · split
    · simp [ofMember, htype, hmember, hsuffix]
    · obtain ⟨n, hn, -⟩ := exists_firstFree_eq taken typeName memberName suffix 2
      rw [hn]
      exact no_slash_numbered htype hmember hsuffix n

/-- Requests without slashes are given names without slashes. -/
theorem no_slash_allocate (taken : List String) {requests : List NameRequest}
    (h : ∀ request ∈ requests, '/' ∉ request.typeName.toList ∧ '/' ∉ request.memberName.toList ∧
      '/' ∉ request.suffix.toList) :
    ∀ name ∈ allocate taken requests, '/' ∉ name.toList := by
  induction requests generalizing taken with
  | nil => simp [allocate]
  | cons request rest ih =>
    obtain ⟨⟨htype, hmember, hsuffix⟩, hrest⟩ := List.forall_mem_cons.mp h
    rw [allocate]
    exact List.forall_mem_cons.mpr ⟨no_slash_choose taken htype hmember hsuffix, ih _ hrest⟩

end FileName

/-- A text without slashes and with the ending of generated files is a name. -/
theorem Path.isName_of_suffix {base suffix : String} (hslash : '/' ∉ (base ++ suffix).toList)
    (hsuffix : 2 < suffix.length) : IsName (base ++ suffix) := by
  have hlong (short : String) (hshort : short.length ≤ 2) : base ++ suffix ≠ short := by
    rintro rfl
    rw [String.length_append] at hshort
    omega
  exact ⟨hlong "" (by decide), hlong "." (by decide), hlong ".." (by decide), hslash⟩

/-- A result whose files can have the names that it asks for. -/
structure GeneratorResult.WellNamed (r : GeneratorResult) : Prop where
  generator : IsName r.generator
  hintNames : ∀ f ∈ r.sources, IsName f.hintName
  distinct : (r.sources.map (·.hintName)).Nodup

/-- No type and no method of a compilation has a slash in its name. -/
def Compilation.SlashFree (c : Compilation) : Prop :=
  ∀ n ∈ c.nodes, n.declaration.kind.isType = true ∨ n.declaration.kind = .methodDeclaration →
    '/' ∉ n.declaration.name.toList

instance (c : Compilation) : Decidable c.SlashFree :=
  inferInstanceAs (Decidable (∀ n ∈ c.nodes, n.declaration.kind.isType = true ∨
    n.declaration.kind = .methodDeclaration → '/' ∉ n.declaration.name.toList))

namespace Generator

variable {c : Compilation}

/-- The type and the method of a record have no slashes in their names. -/
theorem no_slash_of_mem_records (hc : c.SlashFree) {r : Record} (hr : r ∈ c.records) :
    '/' ∉ r.typeName.toList ∧ '/' ∉ r.memberName.toList := by
  rw [Compilation.SlashFree, Compilation.nodes_eq_preorder] at hc
  obtain ⟨hcompletable, hrecord⟩ := Compilation.isRecordOf_of_mem_records hr
  obtain ⟨p, hp, form, hform, -, hname, -⟩ := Compilation.exists_type_of_mem_records hr
  have htree := Compilation.tree_mem_of_mem_records hr
  constructor
  · obtain ⟨q, -, rfl⟩ := NodeRef.mem_parent_iff.mp hp
    rw [hname]
    exact hc _ (Compilation.mem_preorder.mpr htree) (.inl (Option.isSome_of_mem hform))
  · rw [hrecord.memberName_eq]
    exact hc _ (Compilation.mem_preorder.mpr htree) (.inr hcompletable.isMethod)

/-- The names of generated files are names. -/
theorem isName_hintName {g : Generator} (hg : g ∈ all) (hc : c.SlashFree) :
    ∀ f ∈ (g.result c).sources, IsName f.hintName := by
  intro f hf
  have hmem := List.mem_map_of_mem (f := (·.hintName)) hf
  rcases List.mem_pair.mp hg with rfl | rfl
  · rw [hintNames_stub, Option.mem_toList, Option.map_eq_some_iff] at hmem
    obtain ⟨typeName, htarget, hname⟩ := hmem
    obtain ⟨n, hn, htype, rfl⟩ := exists_type_of_targetType? htarget
    rw [← Compilation.nodes_eq_preorder] at hn
    rw [← hname]
    refine Path.isName_of_suffix ?_ (by decide)
    have hslash : '/' ∉ stubSuffix.toList := by decide
    simp [hc n hn (.inl htype), hslash]
  · rw [hintNames_annotated] at hmem
    obtain ⟨base, hbase⟩ := Batch.exists_eq_of_mem_fileNames hmem
    have hslash := FileName.no_slash_allocate [] (fun request hrequest => by
      obtain ⟨r, hr, rfl⟩ := List.mem_map.mp hrequest
      obtain ⟨htype, hmember⟩ := no_slash_of_mem_records hc hr
      have hsuffix : '/' ∉ annotatedSuffix.toList := by decide
      exact ⟨htype, hmember, hsuffix⟩) f.hintName hmem
    rw [hbase] at hslash ⊢
    exact Path.isName_of_suffix hslash (by decide)

/-- What a generator yields carries its name. -/
theorem generator_result (g : Generator) (c : Compilation) : (g.result c).generator = g.name := by
  rw [result]
  split <;> rfl

/-- What the two generators yield can be written under its names. -/
theorem wellNamed_result {g : Generator} (hg : g ∈ all) (hc : c.SlashFree) :
    (g.result c).WellNamed where
  generator := by
    rw [generator_result]
    rcases List.mem_pair.mp hg with rfl | rfl <;> decide
  hintNames := isName_hintName hg hc
  distinct := nodup_hintNames hg c

end Generator

end StubGen
