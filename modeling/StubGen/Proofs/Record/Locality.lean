import Mathlib.Data.List.Flatten
import StubGen.Proofs.Model.Resolution
import StubGen.Proofs.Record.Selection

/-!
# What the records of a file depend on

The records of a compilation are those of its files, one file after the other. Of the other
files only the global usings matter to a file, and of these only which there are: more of them
take no record away, and the same ones in another order change nothing.

Parameter and return types are taken to say something. An empty type is looked up as the
dotted name of the first namespace that has a special type's, so it does depend on the order.
-/

namespace StubGen

/-- A file in which every parameter and return type says something. -/
def Tree.TypesWritten (t : Tree) : Prop :=
  ∀ i, ∀ type ∈ (t.declaration i).types, type.IsWritten

instance (t : Tree) : Decidable t.TypesWritten :=
  inferInstanceAs (Decidable (∀ i, ∀ type ∈ (t.declaration i).types, type.IsWritten))

/-- A projection that is defined on more elements keeps what was kept before, in order. -/
theorem filterMap_sublist_filterMap {α β : Type} {f g : α → Option β} {list : List α}
    (h : ∀ a ∈ list, ∀ b, f a = some b → g a = some b) :
    (list.filterMap f).Sublist (list.filterMap g) := by
  induction list with
  | nil => exact .slnil
  | cons a rest ih =>
    obtain ⟨ha, hrest⟩ := List.forall_mem_cons.mp h
    cases hf : f a with
    | some b =>
      rw [List.filterMap_cons_some hf, List.filterMap_cons_some (ha b hf)]
      exact (ih hrest).cons_cons b
    | none =>
      rw [List.filterMap_cons_none hf]
      cases hg : g a with
      | some b =>
        rw [List.filterMap_cons_some hg]
        exact (ih hrest).cons b
      | none =>
        rw [List.filterMap_cons_none hg]
        exact ih hrest

namespace Compilation

variable {c d : Compilation} {n : NodeRef} {r r' : Record}

/-- The records of one file, found by the same search among its nodes alone. -/
def recordsIn (c : Compilation) (t : Tree) : Batch :=
  Batch.collect ((Id.run (c.selectAnnotated greetingAttribute
    (fun n => pure n.isAnnotatedCandidate) (t.descendants.map (NodeRef.mk t)))).map (·.record?))

/-- The records of a file are those that its nodes give, in pre-order. -/
theorem recordsIn_eq_filterMap (c : Compilation) (t : Tree) :
    c.recordsIn t = ((t.preorder t.root).map (NodeRef.mk t)).filterMap c.recordAt? := by
  rw [recordsIn, collect_selectAnnotated, Tree.descendants_eq_preorder]

/-- The records of a compilation are those of its files, in file order. -/
theorem records_eq_flatMap (c : Compilation) : c.records = c.trees.flatMap c.recordsIn := by
  rw [records_eq_filterMap, preorder, List.filterMap_flatMap, funext c.recordsIn_eq_filterMap]

/-- A record of a file belongs to a method of that file. -/
theorem tree_of_mem_recordsIn {t : Tree} (h : r ∈ c.recordsIn t) : r.node.tree = t := by
  rw [recordsIn_eq_filterMap] at h
  obtain ⟨n, hn, hr⟩ := List.mem_filterMap.mp h
  obtain ⟨i, -, rfl⟩ := List.mem_map.mp hn
  rw [(completable_of_recordAt? hr).2.node_eq]

/-- A method has one record at most, in whichever compilation. -/
theorem IsRecordOf.eq (h : c.IsRecordOf n r) (h' : d.IsRecordOf n r') : r = r' := by
  obtain ⟨p, hp, htype, hkind, hnamespace⟩ := h.ofParent
  obtain ⟨q, hq, htype', hkind', hnamespace'⟩ := h'.ofParent
  obtain rfl := Option.some.inj (hp.symm.trans hq)
  have hparameter : [r.parameterName] = [r'.parameterName] :=
    h.parameterName_eq.symm.trans h'.parameterName_eq
  cases r
  cases r'
  simp only [Record.mk.injEq]
  exact ⟨h.memberName_eq.trans h'.memberName_eq.symm, List.singleton_inj.mp hparameter,
    htype.trans htype'.symm, hnamespace.trans hnamespace'.symm,
    Option.some.inj (hkind.symm.trans hkind'), h.node_eq.trans h'.node_eq.symm⟩

/-- With more global usings a method that is to be completed still is. -/
theorem Completable.mono (husings : c.globalUsings ⊆ d.globalUsings)
    (hwritten : ∀ type ∈ n.declaration.types, type.IsWritten) (h : c.Completable n) :
    d.Completable n := by
  obtain ⟨a, ha, hbinds⟩ := h.isAnnotated
  obtain ⟨returned, hreturned, hvoid⟩ := h.returnsNothing
  have hreturnedWritten : returned.IsWritten :=
    hwritten returned (List.mem_append_left _ (Option.mem_toList.mpr hreturned))
  have hstring : ∀ parameter ∈ n.declaration.parameters, ∃ type ∈ parameter.type,
      ((d.model n.tree).resolve n.id type).special = some .string := by
    intro parameter hparameter
    obtain ⟨type, htype, hspecial⟩ := h.takesString parameter hparameter
    have hmem : type ∈ n.declaration.types :=
      List.mem_append_right _ (List.mem_filterMap.mpr ⟨parameter, hparameter, htype⟩)
    exact ⟨type, htype, resolve_special_mono husings (hwritten type hmem) hspecial⟩
  exact
    { isMethod := h.isMethod
      isPartial := h.isPartial
      isStatic := h.isStatic
      inPartialType := h.inPartialType
      isAnnotated := ⟨a, ha, attributeBinds_mono husings hbinds⟩
      notGeneric := h.notGeneric
      oneParameter := h.oneParameter
      takesString := hstring
      returnsNothing :=
        ⟨returned, hreturned, resolve_special_mono husings hreturnedWritten hvoid⟩ }

/-- With more global usings a node still gives the record that it gave. -/
theorem recordAt?_mono (husings : c.globalUsings ⊆ d.globalUsings)
    (hwritten : ∀ type ∈ n.declaration.types, type.IsWritten) (h : c.recordAt? n = some r) :
    d.recordAt? n = some r := by
  obtain ⟨hcompletable, hrecord⟩ := completable_of_recordAt? h
  obtain ⟨r', hr'⟩ := Option.isSome_iff_exists.mp
    (recordAt?_isSome_of_completable (hcompletable.mono husings hwritten))
  rw [hr', hrecord.eq (completable_of_recordAt? hr').2]

/-- The records that a file gives depend on the global usings alone. -/
theorem recordsIn_eq_of_globalUsings_eq (h : c.globalUsings = d.globalUsings)
    (t : Tree) : c.recordsIn t = d.recordsIn t := by
  have hrecord : c.recordAt? = d.recordAt? := by
    funext n
    simp only [recordAt?, annotated?, model]
    generalize c.globalUsings = used at h
    subst h
    rfl
  rw [recordsIn_eq_filterMap, recordsIn_eq_filterMap, hrecord]

/-- With the same global usings, in any order, a file has the same records. -/
theorem recordsIn_congr (husings : ∀ used, used ∈ c.globalUsings ↔ used ∈ d.globalUsings)
    {t : Tree} (hwritten : t.TypesWritten) : c.recordsIn t = d.recordsIn t := by
  rw [recordsIn_eq_filterMap, recordsIn_eq_filterMap]
  refine List.filterMap_congr fun n hn => ?_
  obtain ⟨i, -, rfl⟩ := List.mem_map.mp hn
  exact Option.ext fun r => ⟨recordAt?_mono (fun _ => (husings _).mp) (hwritten i),
    recordAt?_mono (fun _ => (husings _).mpr) (hwritten i)⟩

/-- A larger compilation has all records of a smaller one, in order. -/
theorem records_sublist (htrees : c.trees.Sublist d.trees)
    (hwritten : ∀ t ∈ c.trees, t.TypesWritten) : c.records.Sublist d.records := by
  have husings : c.globalUsings ⊆ d.globalUsings := by
    intro used hused
    obtain ⟨t, ht, hdirective⟩ := mem_globalUsings.mp hused
    exact mem_globalUsings.mpr ⟨t, htrees.subset ht, hdirective⟩
  rw [records_eq_filterMap, records_eq_filterMap]
  refine (filterMap_sublist_filterMap fun n hn r hr => ?_).trans ((htrees.flatMap _).filterMap _)
  exact recordAt?_mono husings (hwritten n.tree (mem_preorder.mp hn) n.id) hr

/-- The records of a compilation are those of its files in file order, and the records of a
file are determined by the file and by which namespaces are imported for all files, in whatever
order and from whatever files. Permuted files therefore have the same records file by file,
and the records of the compilation are permuted. -/
theorem records_local (c d : Compilation) :
    (∀ t, t.TypesWritten → (∀ used, used ∈ c.globalUsings ↔ used ∈ d.globalUsings) →
      c.recordsIn t = d.recordsIn t) ∧
    c.records = c.trees.flatMap c.recordsIn ∧
    (∀ t, ∀ r ∈ c.recordsIn t, r.node.tree = t) ∧
    (c.trees.Perm d.trees → (∀ t ∈ c.trees, t.TypesWritten) →
      d.records = d.trees.flatMap c.recordsIn ∧ c.records.Perm d.records) := by
  refine ⟨fun t hwritten husings => recordsIn_congr husings hwritten, c.records_eq_flatMap,
    fun t r => tree_of_mem_recordsIn, fun hperm hwritten => ?_⟩
  have husings : ∀ used, used ∈ d.globalUsings ↔ used ∈ c.globalUsings := by
    intro used
    simp only [mem_globalUsings, hperm.mem_iff]
  have hblocks : d.records = d.trees.flatMap c.recordsIn := by
    rw [records_eq_flatMap]
    exact List.flatMap_congr fun t ht => recordsIn_congr husings (hwritten t (hperm.mem_iff.mpr ht))
  refine ⟨hblocks, ?_⟩
  rw [hblocks, records_eq_flatMap]
  exact hperm.flatMap_right _

/-- A file that imports namespaces for all files and declares a type with an annotated method.
The attribute and the type of the parameter are found only in imported namespaces. -/
def annotatedFile (imports : List String) (typeName : String) : Tree :=
  Tree.ofForest ⟨0⟩ {} (imports.foldr (fun name rest => .cons (.ofUsing name true {}) .nil rest)
    (.cons
      { kind := .typeDeclaration .classType, name := typeName
        modifiers := .ofTokens ["partial"] }
      (.cons
        { kind := .methodDeclaration, name := "Speak", attributes := [{ name := "SayHello2" }]
          modifiers := .ofTokens ["static", "partial"], returnType := some (.keyword .void)
          parameters := [{ name := "text", type := some (.named "String") }] } .nil .nil) .nil))

/-- Two files that need what the other one imports have their records in either order. -/
theorem records_local_of_swapped_files :
    let robot := annotatedFile ["System"] "Robot"
    let drone := annotatedFile ["SourceGeneratorSample.Greetings"] "Drone"
    let c : Compilation := ⟨[robot, drone]⟩
    let d : Compilation := ⟨[drone, robot]⟩
    robot.TypesWritten ∧ (∀ used, used ∈ c.globalUsings ↔ used ∈ d.globalUsings) ∧
      c.globalUsings ≠ d.globalUsings ∧ c.trees.Perm d.trees ∧
      (∀ t ∈ c.trees, t.TypesWritten) ∧ c.records.length = 2 ∧
      c.recordsIn robot = d.recordsIn robot ∧
      d.records = d.trees.flatMap c.recordsIn ∧ c.records.Perm d.records := by
  intro robot drone c d
  have hc : c.globalUsings = [⟨["System"]⟩, ⟨["SourceGeneratorSample", "Greetings"]⟩] := by
    decide +kernel
  have hd : d.globalUsings = [⟨["SourceGeneratorSample", "Greetings"]⟩, ⟨["System"]⟩] := by
    decide +kernel
  have husings : ∀ used, used ∈ c.globalUsings ↔ used ∈ d.globalUsings := by
    simp [hc, hd, or_comm]
  have hrobot : robot.TypesWritten := by decide +kernel
  have hdrone : drone.TypesWritten := by decide +kernel
  have hwritten : ∀ t ∈ c.trees, t.TypesWritten :=
    List.forall_mem_cons.mpr ⟨hrobot, List.forall_mem_singleton.mpr hdrone⟩
  have hperm : c.trees.Perm d.trees := .swap drone robot []
  obtain ⟨hlocal, -, -, hpermuted⟩ := records_local c d
  obtain ⟨hblocks, hrecords⟩ := hpermuted hperm hwritten
  exact ⟨hrobot, husings, by rw [hc, hd]; decide, hperm, hwritten, by decide +kernel,
    hlocal robot hrobot husings, hblocks, hrecords⟩

end Compilation

end StubGen
