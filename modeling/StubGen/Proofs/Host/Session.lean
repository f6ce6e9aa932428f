import StubGen.Host
import StubGen.Proofs.Registry.History

/-!
# Sessions of one host

A session changes a registry and runs a host over it, in any order. What a host keeps from
one run to the next never shows in what it yields: every run gives what a host that has
not run before gives on the same registry, apart from the flags that tell what was
carried over.

Digests are only assumed to tell apart the texts and listings of the registries that the
session runs over. Nothing is assumed about registries between the runs.
-/

namespace StubGen

/-- A step of a session. -/
inductive SessionStep where
  /-- An operation on the registry. -/
  | edit (operation : Registry.Operation)
  /-- A run of the host over the registry. -/
  | run
deriving Inhabited

/-- The registries that the runs of a session work on, in order. -/
def Registry.atRuns : Registry → List SessionStep → List Registry
  | _, [] => []
  | r, .edit operation :: rest => (operation.apply r).atRuns rest
  | r, .run :: rest => r :: r.atRuns rest

/-- What the runs of a session yield, in order. -/
def Host.session (parser : Parser) (digest : Digest) :
    Host → Registry → List SessionStep → List RunResult
  | _, _, [] => []
  | h, r, .edit operation :: rest => h.session parser digest (operation.apply r) rest
  | h, r, .run :: rest =>
    (h.run parser digest r).2 :: (h.run parser digest r).1.session parser digest r rest

/-- The result without the flags that tell what was carried over. -/
def RunResult.forgetReuse (result : RunResult) : RunResult :=
  { result with results := result.results.map fun r => { r with reused := false } }

variable {parser : Parser} {digest : Digest}

namespace Registry

/-- The files of a registry as they are parsed when nothing is known of them. -/
def parsed (parser : Parser) (r : Registry) : List ParsedFile :=
  r.files.map (ParsedFile.ofSource parser)

/-- The compilation of a registry. -/
def compilation (parser : Parser) (r : Registry) : Compilation :=
  ParsedFile.compilation (r.parsed parser)

/-- The files with the digests of their texts. -/
def listing (digest : Digest) (r : Registry) : List (FileId × UInt64) :=
  r.files.map fun f => (f.id, digest.text f.text)

/-- The digest of a run over the registry. -/
def fingerprint (parser : Parser) (digest : Digest) (r : Registry) : UInt64 :=
  Host.fingerprint digest (r.compilation parser) r.files

end Registry

/-- The digest does not collide on the texts and listings of the given registries. -/
structure Digest.TellsApart (digest : Digest) (parser : Parser) (registries : List Registry) :
    Prop where
  text : ∀ r ∈ registries, ∀ s ∈ registries, ∀ f ∈ r.files, ∀ g ∈ s.files,
    digest.text f.text = digest.text g.text → f.text = g.text
  listing : ∀ r ∈ registries, ∀ s ∈ registries,
    r.fingerprint parser digest = s.fingerprint parser digest →
      r.listing digest = s.listing digest

/-- The trees of a compilation depend on the numbers and texts of the files alone. -/
theorem Registry.compilation_eq_of_sources {r s : Registry}
    (h : r.files.map (fun f => (f.id, f.text)) = s.files.map fun f => (f.id, f.text)) :
    r.compilation parser = s.compilation parser := by
  have htrees (t : Registry) : (t.compilation parser).trees =
      (t.files.map fun f => (f.id, f.text)).filterMap fun source =>
        (parser source.1 source.2).tree := by
    simp only [compilation, parsed, ParsedFile.compilation, List.filterMap_map]
    rfl
  have hsame : (r.compilation parser).trees = (s.compilation parser).trees := by
    rw [htrees, htrees, h]
  exact congrArg Compilation.mk hsame

/-- Files with one listing have the same texts under the same numbers, if no two of their
texts share a digest. -/
theorem Registry.sources_eq_of_listing_eq {fs gs : List SourceFile}
    (hlisting : fs.map (fun f => (f.id, digest.text f.text)) =
      gs.map fun g => (g.id, digest.text g.text))
    (htext : ∀ f ∈ fs, ∀ g ∈ gs, digest.text f.text = digest.text g.text → f.text = g.text) :
    fs.map (fun f => (f.id, f.text)) = gs.map fun g => (g.id, g.text) := by
  induction fs generalizing gs with
  | nil =>
    obtain rfl := List.map_eq_nil_iff.mp hlisting.symm
    rfl
  | cons f fs ih =>
    cases gs with
    | nil => simp at hlisting
    | cons g gs =>
      simp only [List.map_cons, List.cons.injEq, Prod.mk.injEq] at hlisting ⊢
      obtain ⟨⟨hid, hdigest⟩, hrest⟩ := hlisting
      refine ⟨⟨hid, htext f List.mem_cons_self g List.mem_cons_self hdigest⟩, ?_⟩
      exact ih hrest fun a ha b hb =>
        htext a (List.mem_cons_of_mem _ ha) b (List.mem_cons_of_mem _ hb)

/-- Registries that the digest tells apart have one compilation if their runs have one
digest. -/
theorem Digest.TellsApart.compilation_eq {registries : List Registry}
    (hdigest : digest.TellsApart parser registries) {r s : Registry} (hr : r ∈ registries)
    (hs : s ∈ registries) (h : r.fingerprint parser digest = s.fingerprint parser digest) :
    r.compilation parser = s.compilation parser :=
  Registry.compilation_eq_of_sources
    (Registry.sources_eq_of_listing_eq (hdigest.listing r hr s hs h) (hdigest.text r hr s hs))

/-- A result that a generator has just yielded is not marked as carried over. -/
theorem Generator.reused_result (g : Generator) (c : Compilation) :
    (g.result c).reused = false := by
  unfold result
  split <;> rfl

namespace Host

/-- Every known file is a parsed file of one of the registries in `seen`. -/
def Knows (parser : Parser) (digest : Digest) (seen : List Registry) (known : List KnownFile) :
    Prop :=
  ∀ k ∈ known, ∃ s ∈ seen, ∃ f ∈ s.files,
    k.toParsedFile = ParsedFile.ofSource parser f ∧ k.digest = digest.text f.text

/-- What a host keeps after runs over the registries in `seen`: parsed files of these
registries, and the results for the compilation of one of them. -/
structure Coherent (parser : Parser) (digest : Digest) (seen : List Registry) (h : Host) :
    Prop where
  known : Knows parser digest seen h.known
  previous : ∀ kept ∈ h.previous, ∃ s ∈ seen, kept.1 = s.fingerprint parser digest ∧
    kept.2 = h.generators.map (·.result (s.compilation parser))

/-- A host that has not run yet keeps nothing. -/
theorem coherent_ofGenerators (generators : List Generator) :
    (ofGenerators generators).Coherent parser digest [] :=
  ⟨by simp [Knows, ofGenerators], by simp [ofGenerators]⟩

/-- A run, once it is known that every file comes out as it would be parsed now. Generators are
executed only if nothing is carried over. -/
theorem runM_eq {m : Type → Type} [Monad m]
    (execute : Generator → Compilation → m GeneratorResult) {h : Host} {r : Registry}
    (hknown : (r.files.map (knownFile parser digest h.known)).map (·.toParsedFile) =
      r.parsed parser) :
    h.runM execute parser digest r =
      (match h.carriedOver? (r.fingerprint parser digest) with
      | some results =>
        pure ({ h with known := r.files.map (knownFile parser digest h.known) },
          { results, syntaxErrors := ParsedFile.syntaxErrors (r.parsed parser) })
      | none => do
        let results ← h.generators.mapM fun g => execute g (r.compilation parser)
        pure ({ h with
            known := r.files.map (knownFile parser digest h.known)
            previous := some (r.fingerprint parser digest, results) },
          { results, syntaxErrors := ParsedFile.syntaxErrors (r.parsed parser) })) := by
  simp only [runM, hknown]
  rfl

/-- A run whose generators only yield their results. -/
theorem run_eq {h : Host} {r : Registry}
    (hknown : (r.files.map (knownFile parser digest h.known)).map (·.toParsedFile) =
      r.parsed parser) :
    h.run parser digest r =
      match h.carriedOver? (r.fingerprint parser digest) with
      | some results =>
        ({ h with known := r.files.map (knownFile parser digest h.known) },
          { results, syntaxErrors := ParsedFile.syntaxErrors (r.parsed parser) })
      | none =>
        let results := h.generators.map (·.result (r.compilation parser))
        ({ h with
            known := r.files.map (knownFile parser digest h.known)
            previous := some (r.fingerprint parser digest, results) },
          { results, syntaxErrors := ParsedFile.syntaxErrors (r.parsed parser) }) := by
  rw [run, runM_eq _ hknown, List.mapM_pure]
  cases h.carriedOver? (r.fingerprint parser digest) <;> rfl

/-- A host that has not run yet parses every file and runs every generator. -/
theorem run_ofGenerators (generators : List Generator) (r : Registry) :
    ((ofGenerators generators).run parser digest r).2 =
      { results := generators.map (·.result (r.compilation parser))
        syntaxErrors := ParsedFile.syntaxErrors (r.parsed parser) } := by
  rw [run_eq (by simp [ofGenerators, knownFile, Registry.parsed])]
  rfl

/-- Results that generators have just yielded are the same without the flags. -/
theorem forgetReuse_fresh (generators : List Generator) (c : Compilation)
    (syntaxErrors : List FileErrors) :
    RunResult.forgetReuse { results := generators.map (·.result c), syntaxErrors } =
      { results := generators.map (·.result c), syntaxErrors } := by
  have hfresh (g : Generator) : { g.result c with reused := false } = g.result c := by
    rw [← g.reused_result c]
  simp [RunResult.forgetReuse, hfresh]

/-- Marking results as carried over changes nothing else. -/
theorem forgetReuse_marked (results : List GeneratorResult) (syntaxErrors : List FileErrors) :
    RunResult.forgetReuse
        { results := results.map fun r => { r with reused := true }, syntaxErrors } =
      RunResult.forgetReuse { results, syntaxErrors } := by
  simp [RunResult.forgetReuse]

/-- Results are carried over from a run of the same digest, and are marked. -/
theorem carriedOver?_eq_some {h : Host} {current : UInt64} {results : List GeneratorResult}
    (hcarried : h.carriedOver? current = some results) :
    ∃ kept, h.previous = some (current, kept) ∧
      results = kept.map fun r => { r with reused := true } := by
  obtain ⟨⟨before, kept⟩, hprevious, hsome⟩ := Option.bind_eq_some_iff.mp hcarried
  by_cases hsame : before = current
  · simp only [if_pos hsame, Option.some.injEq] at hsome
    exact ⟨kept, hsame ▸ hprevious, hsome.symm⟩
  · simp [hsame] at hsome

variable {seen registries : List Registry} {h : Host} {r : Registry}

namespace Knows

variable {known : List KnownFile}

/-- Files come out as they would be parsed now, whether they are known or not. A known
file of the same number has the same path, and by its digest the same text. -/
theorem knownFile_eq (hk : Knows parser digest seen known)
    (hseen : ∀ s ∈ seen, s.Numbered ∧ s.Continues r)
    (hdigest : digest.TellsApart parser registries) (hsub : seen ⊆ registries)
    (hr : r ∈ registries) {f : SourceFile} (hf : f ∈ r.files) :
    (knownFile parser digest known f).toParsedFile = ParsedFile.ofSource parser f ∧
      (knownFile parser digest known f).digest = digest.text f.text := by
  unfold knownFile
  split
  · rename_i k hfound
    have hsame := List.find?_some hfound
    simp only [Bool.and_eq_true, beq_iff_eq] at hsame
    obtain ⟨s, hs, g, hg, hparsed, hdig⟩ := hk k (List.mem_of_find?_eq_some hfound)
    have hid : g.id = f.id := by
      rw [← hsame.1]
      exact (congrArg ParsedFile.file hparsed).symm
    have htext : g.text = f.text :=
      hdigest.text s (hsub hs) r hr g hg f hf (hdig.symm.trans hsame.2)
    have hpath : g.path = f.path := (hseen s hs).2.path_eq (hseen s hs).1 hg hf hid
    refine ⟨?_, hsame.2⟩
    rw [hparsed]
    simp only [ParsedFile.ofSource, hid, htext, hpath]
  · exact ⟨rfl, rfl⟩

/-- All files of a registry come out as they would be parsed now. -/
theorem parsed_eq (hk : Knows parser digest seen known)
    (hseen : ∀ s ∈ seen, s.Numbered ∧ s.Continues r)
    (hdigest : digest.TellsApart parser registries) (hsub : seen ⊆ registries)
    (hr : r ∈ registries) :
    (r.files.map (knownFile parser digest known)).map (·.toParsedFile) = r.parsed parser := by
  rw [List.map_map]
  exact List.map_congr_left fun f hf => (hk.knownFile_eq hseen hdigest hsub hr hf).1

/-- After a run the files of its registry are known. -/
theorem map_knownFile (hk : Knows parser digest seen known)
    (hseen : ∀ s ∈ seen, s.Numbered ∧ s.Continues r)
    (hdigest : digest.TellsApart parser registries) (hsub : seen ⊆ registries)
    (hr : r ∈ registries) :
    Knows parser digest (r :: seen) (r.files.map (knownFile parser digest known)) := by
  intro k hmem
  obtain ⟨f, hf, rfl⟩ := List.mem_map.mp hmem
  exact ⟨r, List.mem_cons_self, f, hf, hk.knownFile_eq hseen hdigest hsub hr hf⟩

end Knows

namespace Coherent

/-- A run yields what a fresh host yields. -/
theorem run_result (hc : h.Coherent parser digest seen)
    (hseen : ∀ s ∈ seen, s.Numbered ∧ s.Continues r)
    (hdigest : digest.TellsApart parser registries) (hsub : seen ⊆ registries)
    (hr : r ∈ registries) :
    (h.run parser digest r).2.forgetReuse =
      ((ofGenerators h.generators).run parser digest r).2 := by
  rw [run_ofGenerators, run_eq (hc.known.parsed_eq hseen hdigest hsub hr)]
  cases hcarried : h.carriedOver? (r.fingerprint parser digest) with
  | none => exact forgetReuse_fresh _ _ _
  | some results =>
    obtain ⟨kept, hprevious, rfl⟩ := carriedOver?_eq_some hcarried
    obtain ⟨s, hs, hprint, hresults⟩ := hc.previous _ hprevious
    have hcompilation : s.compilation parser = r.compilation parser :=
      hdigest.compilation_eq (hsub hs) hr hprint.symm
    rw [← forgetReuse_fresh h.generators (r.compilation parser), ← hcompilation, ← hresults,
      forgetReuse_marked]

/-- After a run the host keeps what belongs to the registries seen and the one just run. -/
theorem run_coherent (hc : h.Coherent parser digest seen)
    (hseen : ∀ s ∈ seen, s.Numbered ∧ s.Continues r)
    (hdigest : digest.TellsApart parser registries) (hsub : seen ⊆ registries)
    (hr : r ∈ registries) :
    (h.run parser digest r).1.Coherent parser digest (r :: seen) := by
  have hknown := hc.known.map_knownFile hseen hdigest hsub hr
  rw [run_eq (hc.known.parsed_eq hseen hdigest hsub hr)]
  cases h.carriedOver? (r.fingerprint parser digest) with
  | some results =>
    refine ⟨hknown, fun kept hkept => ?_⟩
    obtain ⟨s, hs, hprevious⟩ := hc.previous kept hkept
    exact ⟨s, List.mem_cons_of_mem _ hs, hprevious⟩
  | none =>
    refine ⟨hknown, fun kept hkept => ?_⟩
    obtain rfl := Option.some.inj hkept
    exact ⟨r, List.mem_cons_self, rfl, rfl⟩

end Coherent

/-- A run leaves the generators as they are. -/
@[simp] theorem run_generators (h : Host) (r : Registry) :
    (h.run parser digest r).1.generators = h.generators := by
  simp only [run, runM, List.mapM_pure]
  split <;> rfl

/-- From any coherent host on, the runs of a session yield what fresh hosts yield. -/
theorem Coherent.session_result {seen registries : List Registry} {h : Host} {r : Registry}
    (hc : h.Coherent parser digest seen) (hr : r.Numbered)
    (hseen : ∀ s ∈ seen, s.Numbered ∧ s.Continues r)
    (hdigest : digest.TellsApart parser registries) (hsub : seen ⊆ registries)
    (steps : List SessionStep) (hruns : r.atRuns steps ⊆ registries) :
    (h.session parser digest r steps).map (·.forgetReuse) =
      (r.atRuns steps).map fun s => ((ofGenerators h.generators).run parser digest s).2 := by
  induction steps generalizing h r seen with
  | nil => rfl
  | cons step rest ih =>
    cases step with
    | edit operation =>
      have hchanges := Registry.changes_apply r operation
      exact ih hc (hr.changes hchanges)
        (fun s hs => ⟨(hseen s hs).1, (hseen s hs).2.trans (.of_changes hchanges)⟩) hsub hruns
    | run =>
      obtain ⟨hmem, hrest⟩ := List.cons_subset.mp hruns
      have hnow := hc.run_result hseen hdigest hsub hmem
      have hlater := ih (hc.run_coherent hseen hdigest hsub hmem) hr
        (List.forall_mem_cons.mpr ⟨⟨hr, .refl r⟩, hseen⟩)
        (List.cons_subset.mpr ⟨hmem, hsub⟩) hrest
      rw [run_generators] at hlater
      rw [session, Registry.atRuns, List.map_cons, List.map_cons, hnow, hlater]

/-- Caching never shows. In every session that starts with a new registry and a new host,
each run yields what a host of the same generators yields when it runs for the first time
on the same registry, apart from the flags that tell what was carried over. -/
theorem session_forgetReuse_eq_fresh (generators : List Generator) (steps : List SessionStep)
    (hdigest : digest.TellsApart parser (Registry.empty.atRuns steps)) :
    ((ofGenerators generators).session parser digest Registry.empty steps).map (·.forgetReuse) =
      (Registry.empty.atRuns steps).map fun r =>
        ((ofGenerators generators).run parser digest r).2 :=
  (coherent_ofGenerators generators).session_result Registry.numbered_empty (by simp) hdigest
    (List.nil_subset _) steps (List.Subset.refl _)

/-- Caching does not show when an edit is undone, a load fails and a removed path comes back,
here with lengths as digests of texts and a parser that reports every text as an error. -/
theorem session_forgetReuse_eq_fresh_of_undone_edit :
    let digest : Digest :=
      { text := fun text => text.length.toUInt64
        listing := fun trees files =>
          files.foldl (fun n f => (n * 100 + f.1.index.toUInt64) * 100 + f.2) trees.toUInt64 }
    let parser : Parser := fun file text =>
      { tree := some (Tree.empty file), errors := [.parseFailed text] }
    let steps : List SessionStep :=
      [.edit (.add ⟨"a.cs"⟩ "class A;"), .run, .edit (.setText ⟨0⟩ "struct B;"), .run,
        .edit (.setText ⟨0⟩ "class A;"), .run, .edit (.load default ⟨0⟩), .run,
        .edit (.remove ⟨0⟩), .run, .edit (.add ⟨"./a.cs"⟩ "class A;"), .run]
    digest.TellsApart parser (Registry.empty.atRuns steps) ∧
      ((ofGenerators Generator.all).session parser digest Registry.empty steps).map
          (·.forgetReuse) =
        (Registry.empty.atRuns steps).map fun r =>
          ((ofGenerators Generator.all).run parser digest r).2 := by
  intro digest parser steps
  have hdigest : digest.TellsApart parser (Registry.empty.atRuns steps) :=
    ⟨by decide +kernel, by decide +kernel⟩
  exact ⟨hdigest, session_forgetReuse_eq_fresh Generator.all steps hdigest⟩

end Host

end StubGen
