import StubGen.Proofs.Generator.Result
import StubGen.Proofs.Record.Locality

/-!
# What a further file changes

A file that joins a compilation takes no record away, wherever it stands and whatever it
imports. If it comes last and imports nothing new for all files, the annotated methods that
were completed before keep their fragments under the same file names, and those of the new
file come after them.

A new import may give records to methods of other files, and these take names that later
records had before.
-/

namespace StubGen

namespace Compilation

/-- Adding what is there already changes nothing. -/
theorem addNew_eq_self {known more : List Namespace} (h : more ⊆ known) :
    addNew known more = known := by
  unfold addNew
  induction more with
  | nil => rfl
  | cons first rest ih =>
    obtain ⟨hfirst, hrest⟩ := List.cons_subset.mp h
    rw [List.foldl_cons, if_pos hfirst]
    exact ih hrest

/-- A last file that imports nothing new for all files leaves the global usings as they are. -/
theorem globalUsings_append {trees : List Tree} {t : Tree}
    (h : ∀ used ∈ globalUsingsOf t, used ∈ globalUsings ⟨trees⟩) :
    globalUsings ⟨trees ++ [t]⟩ = globalUsings ⟨trees⟩ := by
  have hfold : globalUsings ⟨trees ++ [t]⟩ = addNew (globalUsings ⟨trees⟩) (globalUsingsOf t) := by
    simp only [globalUsings, addNew, List.flatMap_append, List.flatMap_singleton,
      List.foldl_append]
  rw [hfold, addNew_eq_self h]

/-- After a last file that imports nothing new for all files, the records begin with those from
before. -/
theorem prefix_records {trees : List Tree} {t : Tree}
    (h : ∀ used ∈ globalUsingsOf t, used ∈ globalUsings ⟨trees⟩) :
    records ⟨trees⟩ <+: records ⟨trees ++ [t]⟩ := by
  have hsame : recordsIn ⟨trees ++ [t]⟩ = recordsIn ⟨trees⟩ :=
    funext (recordsIn_eq_of_globalUsings_eq (globalUsings_append h))
  rw [records_eq_flatMap, records_eq_flatMap, hsame, List.flatMap_append]
  exact List.prefix_append _ _

end Compilation

/-- If the records begin with those of another compilation, so do the fragments. -/
theorem Generator.prefix_sources {c d : Compilation} (h : c.records <+: d.records) :
    (annotated.result c).sources <+: (annotated.result d).sources := by
  obtain ⟨sources, hresult, hnames, hmatch⟩ := result_annotated c
  obtain ⟨more, hresultMore, hnamesMore, hmatchMore⟩ := result_annotated d
  have hallocated : sources.map (·.hintName) <+: more.map (·.hintName) := by
    rw [hnames, hnamesMore]
    exact FileName.prefix_allocate (h.map _) []
  rw [hresult, hresultMore]
  exact Batch.prefix_fragments h hallocated hmatch hmatchMore

namespace Compilation

/-- A further file takes no generated method away. Wherever it is put among the files, the
records of the others are still there, unchanged and in the same order. If it is put last and
imports nothing new for all files, the fragments for the annotated methods begin with those
that were there before, under the same file names. -/
theorem records_sources_grow (before after : List Tree) (t : Tree) :
    ((∀ file ∈ before ++ after, file.TypesWritten) →
      (records ⟨before ++ after⟩).Sublist (records ⟨before ++ t :: after⟩)) ∧
    ((∀ used ∈ globalUsingsOf t, used ∈ globalUsings ⟨before⟩) →
      (Generator.annotated.result ⟨before⟩).sources <+:
        (Generator.annotated.result ⟨before ++ [t]⟩).sources) := by
  refine ⟨fun hwritten => ?_, fun husings => ?_⟩
  · exact records_sublist ((List.Sublist.refl before).append (List.sublist_cons_self t after))
      hwritten
  · exact Generator.prefix_sources (prefix_records husings)

/-- A second part of a type in a last file gets a name of its own, and the name of the first
part stays. -/
theorem records_sources_grow_of_second_part :
    let first := annotatedFile ["System", "SourceGeneratorSample.Greetings"] "Robot"
    let drone := annotatedFile [] "Drone"
    let second := annotatedFile ["System"] "Robot"
    (∀ file ∈ [first] ++ [drone], file.TypesWritten) ∧
      (∀ used ∈ globalUsingsOf second, used ∈ globalUsings ⟨[first]⟩) ∧
      (records ⟨[first] ++ [drone]⟩).Sublist (records ⟨[first] ++ second :: [drone]⟩) ∧
      (Generator.annotated.result ⟨[first]⟩).sources <+:
        (Generator.annotated.result ⟨[first] ++ [second]⟩).sources ∧
      (Generator.annotated.result ⟨[first] ++ [second]⟩).sources.map (·.hintName) =
        ["Robot.GreetingGenerator_UseAttribute.g.cs",
          "Robot.Speak.GreetingGenerator_UseAttribute.g.cs"] := by
  intro first drone second
  have hwritten : ∀ file ∈ [first] ++ [drone], file.TypesWritten :=
    List.forall_mem_cons.mpr ⟨by decide +kernel, List.forall_mem_singleton.mpr (by decide +kernel)⟩
  have husings : ∀ used ∈ globalUsingsOf second, used ∈ globalUsings ⟨[first]⟩ := by
    decide +kernel
  obtain ⟨hrecords, hsources⟩ := records_sources_grow [first] [drone] second
  exact ⟨hwritten, husings, hrecords hwritten, hsources husings, by decide +kernel⟩

end Compilation

end StubGen
