import StubGen.Host
import StubGen.Proofs.Receiver.FirstStub
import StubGen.Proofs.Record.Selection

/-!
# What the generators yield

Neither of the two generators fails: the type of a record can always be reopened, and the
file names of a batch are all different. Each yields the fragments that it hands over.

The file names of one generator never clash. Those of both together cannot clash either as
long as the type of the greeting stub has no dot in its name: the ending for annotated
methods is longer than the one for greeting stubs by a piece that has a dot.
-/

namespace StubGen.Generator

/-- A pass that ends in success yields what it took in. -/
theorem result_of_run {g : Generator} {c : Compilation} {sources : List Fragment}
    (h : Pass.run { generator := g.name } (g.program c) =
      ({ generator := g.name, sources := sources }, .ok ())) :
    g.result c = { generator := g.name, sources := sources, error := none, reused := false } := by
  rw [result, h]

/-- The greeting of the target's type is yielded, if there is a target. -/
theorem result_stub (c : Compilation) :
    stub.result c =
      { generator := stub.name
        sources := (c.targetType?.map fun typeName =>
          Fragment.ofTargetType typeName stubSuffix).toList
        error := none
        reused := false } :=
  result_of_run (Pass.run_stub c)

/-- One fragment is yielded for each record, under the file names of the batch. -/
theorem result_annotated (c : Compilation) :
    ∃ sources,
      annotated.result c =
        { generator := annotated.name, sources := sources, error := none, reused := false } ∧
      sources.map (·.hintName) = c.records.fileNames annotatedSuffix ∧
      List.Forall₂ (fun r f => r.fragment f.hintName = .ok f) c.records sources := by
  obtain ⟨sources, hrun, hnames, hmatch⟩ := c.run_annotated
  exact ⟨sources, result_of_run hrun, hnames, hmatch⟩

/-- A name without a dot and the ending for greeting stubs do not make a name with the ending
for annotated methods. -/
theorem append_stubSuffix_ne {typeName : String} (h : '.' ∉ typeName.toList) (base : String) :
    typeName ++ stubSuffix ≠ base ++ annotatedSuffix := by
  intro heq
  have hending : annotatedSuffix = ".GreetingGenerator_UseAttribute" ++ stubSuffix := rfl
  rw [hending, ← String.append_assoc, String.append_left_inj] at heq
  rw [heq, String.toList_append] at h
  exact h (List.mem_append_right _ (by decide))

/-- The target's type is a type of the compilation. -/
theorem exists_type_of_targetType? {c : Compilation} {typeName : String}
    (h : c.targetType? = some typeName) :
    ∃ n ∈ c.preorder, n.declaration.kind.isType = true ∧ n.declaration.name = typeName := by
  rw [Compilation.targetType?_eq] at h
  obtain ⟨n, hfirst, rfl⟩ := Option.map_eq_some_iff.mp h
  obtain ⟨hn, hopens⟩ := Compilation.opensGreeting_of_find? hfirst
  exact ⟨n, hn, hopens.isType_eq_true, rfl⟩

/-- The file name of a completed greeting. -/
theorem hintNames_stub (c : Compilation) :
    (stub.result c).sources.map (·.hintName) = (c.targetType?.map (· ++ stubSuffix)).toList := by
  rw [result_stub]
  cases c.targetType? <;> rfl

/-- The file names of completed methods. -/
theorem hintNames_annotated (c : Compilation) :
    (annotated.result c).sources.map (·.hintName) = c.records.fileNames annotatedSuffix := by
  obtain ⟨sources, hresult, hnames, -⟩ := result_annotated c
  rw [hresult, hnames]

/-- Neither generator fails. -/
theorem result_error {g : Generator} (hg : g ∈ all) (c : Compilation) :
    (g.result c).error = none := by
  rcases List.mem_pair.mp hg with rfl | rfl
  · rw [result_stub]
  · obtain ⟨sources, hresult, -⟩ := result_annotated c
    rw [hresult]

/-- Neither generator yields two fragments under one name. -/
theorem nodup_hintNames {g : Generator} (hg : g ∈ all) (c : Compilation) :
    ((g.result c).sources.map (·.hintName)).Nodup := by
  rcases List.mem_pair.mp hg with rfl | rfl
  · rw [hintNames_stub]
    cases c.targetType? <;> simp
  · rw [hintNames_annotated]
    exact Batch.fileNames_nodup _ _

/-- Both generators always end in success and yield fragments under different names: one for
the target, if there is one, and one for each record. If no type of the compilation has a dot
in its name, all names of both generators are different. -/
theorem results_ok_hintNames_nodup (c : Compilation) :
    (∀ g ∈ all, (g.result c).error = none ∧ ((g.result c).sources.map (·.hintName)).Nodup) ∧
      (stub.result c).sources.length = c.targetType?.toList.length ∧
      (annotated.result c).sources.length = c.records.length ∧
      ((∀ n ∈ c.preorder, n.declaration.kind.isType = true →
          '.' ∉ n.declaration.name.toList) →
        ((all.flatMap fun g => (g.result c).sources).map (·.hintName)).Nodup) := by
  refine ⟨fun g hg => ⟨result_error hg c, nodup_hintNames hg c⟩, ?_, ?_, fun hdots => ?_⟩
  · rw [← List.length_map (f := (·.hintName)), hintNames_stub]
    cases c.targetType? <;> rfl
  · rw [← List.length_map (f := (·.hintName)), hintNames_annotated, Batch.length_fileNames]
  · rw [all, List.flatMap_cons, List.flatMap_singleton, List.map_append]
    refine List.nodup_append.mpr
      ⟨nodup_hintNames (.head _) c, nodup_hintNames (.tail _ (.head _)) c, ?_⟩
    intro first hfirst second hsecond
    -- A common name would put the longer ending, and so a dot, into the name of the target's type.
    rw [hintNames_stub, Option.mem_toList, Option.map_eq_some_iff] at hfirst
    rw [hintNames_annotated] at hsecond
    obtain ⟨typeName, htarget, rfl⟩ := hfirst
    obtain ⟨base, rfl⟩ := Batch.exists_eq_of_mem_fileNames hsecond
    obtain ⟨n, hn, htype, hname⟩ := exists_type_of_targetType? htarget
    exact append_stubSuffix_ne (hname ▸ hdots n hn htype) base

/-- A file that declares `partial class Greeter` with a greeting stub and two annotated
methods. -/
def greeterFile : Tree :=
  let method (name : String) (attributes : List Declaration.Attribute) : Declaration :=
    { kind := .methodDeclaration, name := name, attributes := attributes
      modifiers := .ofTokens ["static", "partial"], returnType := some (.keyword .void)
      parameters := [{ name := "name", type := some (.keyword .string) }] }
  let sayHello : Declaration.Attribute :=
    { name := "global::SourceGeneratorSample.Greetings.SayHello2" }
  Tree.ofForest ⟨0⟩ {} (.cons
    { kind := .typeDeclaration .classType, name := "Greeter"
      modifiers := .ofTokens ["partial"] }
    (.cons (method "SayHelloTo" []) .nil (.cons (method "Speak" [sayHello]) .nil
      (.cons (method "Wave" [sayHello]) .nil .nil))) .nil)

/-- Three fragments for one type have three names. -/
theorem hintNames_greeterFile :
    (∀ n ∈ Compilation.preorder ⟨[greeterFile]⟩, n.declaration.kind.isType = true →
        '.' ∉ n.declaration.name.toList) ∧
      (all.flatMap fun g => (g.result ⟨[greeterFile]⟩).sources).map (·.hintName) =
        ["Greeter.g.cs", "Greeter.GreetingGenerator_UseAttribute.g.cs",
          "Greeter.Wave.GreetingGenerator_UseAttribute.g.cs"] ∧
      ((all.flatMap fun g => (g.result ⟨[greeterFile]⟩).sources).map (·.hintName)).Nodup := by
  have hdots : ∀ n ∈ Compilation.preorder ⟨[greeterFile]⟩, n.declaration.kind.isType = true →
      '.' ∉ n.declaration.name.toList := by decide +kernel
  exact ⟨hdots, by decide +kernel, (results_ok_hintNames_nodup ⟨[greeterFile]⟩).2.2.2 hdots⟩

end StubGen.Generator
