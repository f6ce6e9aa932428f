import StubGen.Proofs.Host.Session

/-!
# Reuse of results

A host carries its results over exactly if the files are those of the run before: the same
numbers with the same texts, in the same order. Then no generator is executed. Otherwise every
generator is executed once, also if the files are back to what they were before the last run.

Executing a generator may depend on a state and change it here, so executions can be counted
from within.
-/

namespace StubGen

/-- The numbers of the files with their texts, in the order of registration. -/
def Registry.sources (r : Registry) : List (FileId × String) :=
  r.files.map fun f => (f.id, f.text)

/-- An execution of a generator for a compilation. -/
abbrev Execution := Generator × Compilation

variable {σ : Type}

/-- Executes a generator and takes a note of that. -/
def Generator.noting (execute : Generator → Compilation → StateM σ GeneratorResult)
    (g : Generator) (c : Compilation) : StateM (σ × List Execution) GeneratorResult :=
  fun (s, executed) =>
    match execute g c s with
    | (result, s') => (result, (s', executed ++ [(g, c)]))

/-- What happened in one run of a host. -/
structure RunTrace where
  registry : Registry
  /-- The executions of generators, in order. -/
  executed : List Execution
  result : RunResult

/-- A run of a host from a state on, with what happens in it. -/
def Host.runTraced (execute : Generator → Compilation → StateM σ GeneratorResult) (h : Host)
    (parser : Parser) (digest : Digest) (r : Registry) (s : σ) : Host × RunTrace × σ :=
  match h.runM (Generator.noting execute) parser digest r (s, []) with
  | ((h', result), (s', executed)) => (h', { registry := r, executed, result }, s')

/-- What happens in the runs of a session, in order. -/
def Host.trace (execute : Generator → Compilation → StateM σ GeneratorResult) (parser : Parser)
    (digest : Digest) : Host → Registry → List SessionStep → σ → List RunTrace
  | _, _, [], _ => []
  | h, r, .edit operation :: rest, s => h.trace execute parser digest (operation.apply r) rest s
  | h, r, .run :: rest, s =>
    match h.runTraced execute parser digest r s with
    | (h', run, s') => run :: h'.trace execute parser digest r rest s'

variable {parser : Parser} {digest : Digest}

/-- What a run does after the run before it, if there was one. -/
structure RunTrace.Follows (parser : Parser) (generators : List Generator)
    (before : Option RunTrace) (run : RunTrace) : Prop where
  /-- There is one result for each generator. -/
  length : run.result.results.length = generators.length
  /-- Results are marked if and only if the files are those of the run before. -/
  marked : ∀ result ∈ run.result.results,
    (result.reused = true ↔ ∃ last ∈ before, last.registry.sources = run.registry.sources)
  /-- If the files are those of the run before, no generator is executed, and all results are
  repeated. -/
  unchanged : ∀ last ∈ before, last.registry.sources = run.registry.sources →
    run.executed = [] ∧ run.result.forgetReuse.results = last.result.forgetReuse.results
  /-- If they are not, each generator is executed once, in order. -/
  changed : (∀ last ∈ before, last.registry.sources ≠ run.registry.sources) →
    run.executed = generators.map (·, run.registry.compilation parser)

/-- Every run follows the one before it, and the first follows `before`. -/
def RunTrace.Successive (parser : Parser) (generators : List Generator) :
    Option RunTrace → List RunTrace → Prop
  | _, [] => True
  | before, run :: rest =>
    run.Follows parser generators before ∧ Successive parser generators (some run) rest

/-- Registries that the digest tells apart have one digest if and only if they have the same
texts under the same numbers. -/
theorem Digest.TellsApart.fingerprint_eq_iff {registries : List Registry}
    (hdigest : digest.TellsApart parser registries) {r s : Registry} (hr : r ∈ registries)
    (hs : s ∈ registries) :
    r.fingerprint parser digest = s.fingerprint parser digest ↔ r.sources = s.sources := by
  constructor
  · intro hprint
    exact Registry.sources_eq_of_listing_eq (hdigest.listing r hr s hs hprint)
      (hdigest.text r hr s hs)
  · intro hsources
    have hlisting (t : Registry) : t.files.map (fun f => (f.id, digest.text f.text)) =
        t.sources.map fun source => (source.1, digest.text source.2) := by
      simp [Registry.sources]
    rw [Registry.fingerprint, Registry.fingerprint, Host.fingerprint, Host.fingerprint, hlisting,
      hlisting, hsources, Registry.compilation_eq_of_sources hsources]

namespace Generator

variable {execute : Generator → Compilation → StateM σ GeneratorResult}

/-- Without generators nothing happens. -/
theorem mapM_nil_apply {τ : Type} (act : Generator → StateM τ GeneratorResult) (s : τ) :
    ([] : List Generator).mapM act s = ([], s) := rfl

/-- Generators are executed one after the other, each from the state that the one before it
left. -/
theorem mapM_cons_apply {τ : Type} (act : Generator → StateM τ GeneratorResult) (g : Generator)
    (rest : List Generator) (s : τ) :
    (g :: rest).mapM act s =
      ((act g s).1 :: (rest.mapM act (act g s).2).1, (rest.mapM act (act g s).2).2) := by
  rw [List.mapM_cons]
  rfl

theorem noting_apply (g : Generator) (c : Compilation) (s : σ) (executed : List Execution) :
    noting execute g c (s, executed) =
      ((execute g c s).1, ((execute g c s).2, executed ++ [(g, c)])) := rfl

/-- Taking notes changes nothing else, and each generator is noted once. -/
theorem mapM_noting (generators : List Generator) (c : Compilation) (s : σ)
    (executed : List Execution) :
    generators.mapM (fun g => noting execute g c) (s, executed) =
      ((generators.mapM (fun g => execute g c) s).1,
        ((generators.mapM (fun g => execute g c) s).2, executed ++ generators.map (·, c))) := by
  induction generators generalizing s executed with
  | nil => rw [mapM_nil_apply, mapM_nil_apply, List.map_nil, List.append_nil]
  | cons g rest ih =>
    rw [mapM_cons_apply, mapM_cons_apply, noting_apply, ih, List.append_assoc]
    rfl

/-- There is one result for each generator. -/
theorem length_mapM (execute : Generator → Compilation → StateM σ GeneratorResult)
    (generators : List Generator) (c : Compilation) (s : σ) :
    (generators.mapM (fun g => execute g c) s).1.length = generators.length := by
  induction generators generalizing s with
  | nil => rfl
  | cons g rest ih => rw [mapM_cons_apply, List.length_cons, ih, List.length_cons]

/-- If executions yield unmarked results, no result is marked. -/
theorem reused_of_mem_mapM (hfresh : ∀ g c s, (execute g c s).1.reused = false)
    (generators : List Generator) (c : Compilation) (s : σ) :
    ∀ result ∈ (generators.mapM (fun g => execute g c) s).1, result.reused = false := by
  induction generators generalizing s with
  | nil => simp [mapM_nil_apply]
  | cons g rest ih =>
    rw [mapM_cons_apply]
    exact List.forall_mem_cons.mpr ⟨hfresh g c s, ih _⟩

end Generator

namespace Host

/-- A host of the generators that knows the files of the registries in `seen` and has kept what
the last run yielded, apart from the marks, under the digest of its registry. -/
structure Recalls (parser : Parser) (digest : Digest) (generators : List Generator)
    (seen : List Registry) (before : Option RunTrace) (h : Host) : Prop where
  same : h.generators = generators
  known : Knows parser digest seen h.known
  nothing : before = none → h.previous = none
  kept : ∀ last ∈ before, last.registry ∈ seen ∧
    ∃ results, h.previous = some (last.registry.fingerprint parser digest, results) ∧
      results.length = generators.length ∧
      results.map (fun r => { r with reused := false }) = last.result.forgetReuse.results

/-- A host that has not run yet recalls no run. -/
theorem recalls_ofGenerators (generators : List Generator) :
    (ofGenerators generators).Recalls parser digest generators [] none :=
  ⟨rfl, by simp [Knows, ofGenerators], fun _ => rfl, by simp⟩

variable {execute : Generator → Compilation → StateM σ GeneratorResult}
  {generators : List Generator} {seen registries : List Registry} {before : Option RunTrace}
  {h : Host} {r : Registry}

/-- What was kept is carried over if the files are those of the last run. -/
theorem Recalls.carriedOver?_of_same (hrec : h.Recalls parser digest generators seen before)
    (hdigest : digest.TellsApart parser registries) (hsub : seen ⊆ registries)
    (hr : r ∈ registries) {last : RunTrace} (hlast : last ∈ before)
    (hsame : last.registry.sources = r.sources) :
    ∃ results, h.previous = some (r.fingerprint parser digest, results) ∧
      h.carriedOver? (r.fingerprint parser digest) =
        some (results.map fun r => { r with reused := true }) ∧
      results.length = generators.length ∧
      results.map (fun r => { r with reused := false }) = last.result.forgetReuse.results := by
  obtain ⟨hseen, results, hprevious, hlength, hkept⟩ := hrec.kept last hlast
  rw [(hdigest.fingerprint_eq_iff (hsub hseen) hr).mpr hsame] at hprevious
  exact ⟨results, hprevious, by simp [carriedOver?, hprevious], hlength, hkept⟩

/-- Nothing is carried over if the files are not those of the last run. -/
theorem Recalls.carriedOver?_of_changed (hrec : h.Recalls parser digest generators seen before)
    (hdigest : digest.TellsApart parser registries) (hsub : seen ⊆ registries)
    (hr : r ∈ registries) (hchanged : ∀ last ∈ before, last.registry.sources ≠ r.sources) :
    h.carriedOver? (r.fingerprint parser digest) = none := by
  cases before with
  | none => simp [carriedOver?, hrec.nothing rfl]
  | some last =>
    obtain ⟨hseen, results, hprevious, -⟩ := hrec.kept last rfl
    have hprint : last.registry.fingerprint parser digest ≠ r.fingerprint parser digest :=
      mt (hdigest.fingerprint_eq_iff (hsub hseen) hr).mp (hchanged last rfl)
    simp [carriedOver?, hprevious, hprint]

/-- A run that carries something over executes nothing. -/
theorem runTraced_of_carriedOver {results : List GeneratorResult}
    (hparsed : (r.files.map (knownFile parser digest h.known)).map (·.toParsedFile) =
      r.parsed parser)
    (hcarried : h.carriedOver? (r.fingerprint parser digest) = some results) (s : σ) :
    h.runTraced execute parser digest r s =
      ({ h with known := r.files.map (knownFile parser digest h.known) },
        { registry := r
          executed := []
          result := { results, syntaxErrors := ParsedFile.syntaxErrors (r.parsed parser) } },
        s) := by
  rw [runTraced, runM_eq _ hparsed, hcarried]
  rfl

/-- A run that carries nothing over executes each generator once and keeps what it yields. -/
theorem runTraced_of_carriedOver_eq_none
    (hparsed : (r.files.map (knownFile parser digest h.known)).map (·.toParsedFile) =
      r.parsed parser)
    (hcarried : h.carriedOver? (r.fingerprint parser digest) = none) (s : σ) :
    h.runTraced execute parser digest r s =
      let out := h.generators.mapM (fun g => execute g (r.compilation parser)) s
      ({ h with
          known := r.files.map (knownFile parser digest h.known)
          previous := some (r.fingerprint parser digest, out.1) },
        { registry := r
          executed := h.generators.map (·, r.compilation parser)
          result :=
            { results := out.1, syntaxErrors := ParsedFile.syntaxErrors (r.parsed parser) } },
        out.2) := by
  rw [runTraced, runM_eq _ hparsed, hcarried]
  simp only [bind, StateT.bind, Generator.mapM_noting]
  rfl

namespace Recalls

/-- A run over the files of the last run repeats it, and leaves the next run to do the same. -/
theorem runTraced_of_same (hrec : h.Recalls parser digest generators seen before)
    (hseen : ∀ s ∈ seen, s.Numbered ∧ s.Continues r)
    (hdigest : digest.TellsApart parser registries) (hsub : seen ⊆ registries)
    (hr : r ∈ registries) {last : RunTrace} (hlast : last ∈ before)
    (hsame : last.registry.sources = r.sources) (s : σ) :
    (h.runTraced execute parser digest r s).2.1.Follows parser generators before ∧
      (h.runTraced execute parser digest r s).1.Recalls parser digest generators (r :: seen)
        (some (h.runTraced execute parser digest r s).2.1) := by
  obtain ⟨results, hprevious, hcarried, hlength, hkept⟩ :=
    hrec.carriedOver?_of_same hdigest hsub hr hlast hsame
  rw [runTraced_of_carriedOver (hrec.known.parsed_eq hseen hdigest hsub hr) hcarried]
  have hrepeated : (RunResult.forgetReuse
      { results := results.map fun r => { r with reused := true }
        syntaxErrors := ParsedFile.syntaxErrors (r.parsed parser) }).results =
      last.result.forgetReuse.results := by
    rw [forgetReuse_marked]
    exact hkept
  constructor
  · refine ⟨by simp [hlength], ?_, ?_, fun hchanged => absurd hsame (hchanged last hlast)⟩
    · intro result hresult
      obtain ⟨_, -, rfl⟩ := List.mem_map.mp hresult
      exact iff_of_true rfl ⟨last, hlast, hsame⟩
    · intro last' hlast' _
      obtain rfl := Option.mem_unique hlast hlast'
      exact ⟨rfl, hrepeated⟩
  · refine ⟨hrec.same, hrec.known.map_knownFile hseen hdigest hsub hr, by simp, fun run hrun => ?_⟩
    obtain rfl := Option.some.inj hrun
    exact ⟨List.mem_cons_self, results, hprevious, hlength, hkept.trans hrepeated.symm⟩

/-- A run over other files than those of the last run executes every generator, and what it
yields is kept for the next run. -/
theorem runTraced_of_changed (hrec : h.Recalls parser digest generators seen before)
    (hseen : ∀ s ∈ seen, s.Numbered ∧ s.Continues r)
    (hdigest : digest.TellsApart parser registries) (hsub : seen ⊆ registries)
    (hr : r ∈ registries) (hchanged : ∀ last ∈ before, last.registry.sources ≠ r.sources)
    (hfresh : ∀ g c s, (execute g c s).1.reused = false) (s : σ) :
    (h.runTraced execute parser digest r s).2.1.Follows parser generators before ∧
      (h.runTraced execute parser digest r s).1.Recalls parser digest generators (r :: seen)
        (some (h.runTraced execute parser digest r s).2.1) := by
  have hlength := (Generator.length_mapM execute h.generators (r.compilation parser) s).trans
    (congrArg List.length hrec.same)
  have hmarks := Generator.reused_of_mem_mapM hfresh h.generators (r.compilation parser) s
  rw [runTraced_of_carriedOver_eq_none (hrec.known.parsed_eq hseen hdigest hsub hr)
    (hrec.carriedOver?_of_changed hdigest hsub hr hchanged)]
  constructor
  · refine ⟨hlength, fun result hresult => ?_, ?_, fun _ => ?_⟩
    · refine iff_of_false (by simp [hmarks result hresult]) fun hsame => ?_
      obtain ⟨last, hlast, hsources⟩ := hsame
      exact hchanged last hlast hsources
    · intro last hlast hsources
      exact absurd hsources (hchanged last hlast)
    · rw [hrec.same]
  · refine ⟨hrec.same, hrec.known.map_knownFile hseen hdigest hsub hr, by simp, fun run hrun => ?_⟩
    obtain rfl := Option.some.inj hrun
    exact ⟨List.mem_cons_self, _, rfl, hlength, rfl⟩

/-- A run follows the last run and is recalled by the next one. -/
theorem runTraced (hrec : h.Recalls parser digest generators seen before)
    (hseen : ∀ s ∈ seen, s.Numbered ∧ s.Continues r)
    (hdigest : digest.TellsApart parser registries) (hsub : seen ⊆ registries)
    (hr : r ∈ registries) (hfresh : ∀ g c s, (execute g c s).1.reused = false) (s : σ) :
    (h.runTraced execute parser digest r s).2.1.Follows parser generators before ∧
      (h.runTraced execute parser digest r s).1.Recalls parser digest generators (r :: seen)
        (some (h.runTraced execute parser digest r s).2.1) := by
  by_cases hsame : ∃ last ∈ before, last.registry.sources = r.sources
  · obtain ⟨last, hlast, hsources⟩ := hsame
    exact hrec.runTraced_of_same hseen hdigest hsub hr hlast hsources s
  · have hchanged : ∀ last ∈ before, last.registry.sources ≠ r.sources :=
      fun last hlast hsources => hsame ⟨last, hlast, hsources⟩
    exact hrec.runTraced_of_changed hseen hdigest hsub hr hchanged hfresh s

/-- From any host on that recalls the last run, every run follows the one before it. -/
theorem successive_trace (hrec : h.Recalls parser digest generators seen before)
    (hr : r.Numbered) (hseen : ∀ s ∈ seen, s.Numbered ∧ s.Continues r)
    (hdigest : digest.TellsApart parser registries) (hsub : seen ⊆ registries)
    (hfresh : ∀ g c s, (execute g c s).1.reused = false) (steps : List SessionStep)
    (hruns : r.atRuns steps ⊆ registries) (s : σ) :
    (h.trace execute parser digest r steps s).map (·.registry) = r.atRuns steps ∧
      RunTrace.Successive parser generators before (h.trace execute parser digest r steps s) := by
  induction steps generalizing h r seen before s with
  | nil => exact ⟨rfl, trivial⟩
  | cons step rest ih =>
    cases step with
    | edit operation =>
      have hchanges := Registry.changes_apply r operation
      exact ih hrec (hr.changes hchanges)
        (fun s hs => ⟨(hseen s hs).1, (hseen s hs).2.trans (.of_changes hchanges)⟩) hsub hruns s
    | run =>
      obtain ⟨hmem, hrest⟩ := List.cons_subset.mp hruns
      obtain ⟨hfollows, hnext⟩ := hrec.runTraced hseen hdigest hsub hmem hfresh s
      obtain ⟨hregistries, hlater⟩ := ih hnext hr
        (List.forall_mem_cons.mpr ⟨⟨hr, .refl r⟩, hseen⟩)
        (List.cons_subset.mpr ⟨hmem, hsub⟩) hrest (h.runTraced execute parser digest r s).2.2
      exact ⟨by rw [trace, List.map_cons, hregistries]; rfl, hfollows, hlater⟩

end Recalls

/-- If executing a generator does nothing but yield its result, a run is traced as it is. -/
theorem runTraced_pure (parser : Parser) (digest : Digest) (h : Host) (r : Registry) (s : σ) :
    ∃ executed, h.runTraced (fun g c => pure (g.result c)) parser digest r s =
      ((h.run parser digest r).1,
        { registry := r, executed, result := (h.run parser digest r).2 }, s) := by
  have hrun : ∃ executed, h.runM (Generator.noting fun g c => pure (g.result c)) parser digest r
      (s, []) = (h.run parser digest r, (s, executed)) := by
    simp only [runM, run, List.mapM_pure]
    generalize h.carriedOver? _ = carried
    cases carried with
    | some results => exact ⟨[], rfl⟩
    | none =>
      simp only [bind, StateT.bind, Generator.mapM_noting, List.mapM_pure]
      exact ⟨_, rfl⟩
  obtain ⟨executed, hrun⟩ := hrun
  exact ⟨executed, by rw [runTraced, hrun]⟩

/-- If executing a generator does nothing but yield its result, the results of all runs are those
of the session. -/
theorem map_result_trace (h : Host) (r : Registry) (steps : List SessionStep) (s : σ) :
    (h.trace (fun g c => pure (g.result c)) parser digest r steps s).map (·.result) =
      h.session parser digest r steps := by
  induction steps generalizing h r with
  | nil => rfl
  | cons step rest ih =>
    cases step with
    | edit operation => exact ih h _
    | run =>
      obtain ⟨executed, hrun⟩ := runTraced_pure parser digest h r s
      rw [trace, hrun, List.map_cons, ih, session]

/-- Results are reused exactly if nothing changed. In every session of a new host, the results
of a run are marked if and only if there was a run before and its files have the same numbers
and texts in the same order. Then no generator is executed, and the results are repeated. In
all other runs every generator is executed once. -/
theorem reused_iff_sources_eq (generators : List Generator) (steps : List SessionStep)
    (hdigest : digest.TellsApart parser (Registry.empty.atRuns steps))
    (hfresh : ∀ g c s, (execute g c s).1.reused = false) (s : σ) :
    ((ofGenerators generators).trace execute parser digest Registry.empty steps s).map
        (·.registry) = Registry.empty.atRuns steps ∧
      RunTrace.Successive parser generators none
        ((ofGenerators generators).trace execute parser digest Registry.empty steps s) :=
  (recalls_ofGenerators generators).successive_trace Registry.numbered_empty (by simp) hdigest
    (List.nil_subset _) hfresh steps (List.Subset.refl _) s

/-- Results are reused when an edit changes nothing or is undone at once. They are not reused when
it is undone one run later, nor when a path comes back under a new number. Here every execution
counts itself, and one of the generators fails. -/
theorem reused_iff_sources_eq_of_undone_edits :
    let digest : Digest :=
      { text := fun text => text.length.toUInt64
        listing := fun trees files =>
          files.foldl (fun n f => (n * 100 + f.1.index.toUInt64) * 100 + f.2) trees.toUInt64 }
    let parser : Parser := fun file _ => { tree := some (Tree.empty file), errors := [] }
    let execute : Generator → Compilation → StateM Nat GeneratorResult := fun g c => do
      modify (· + 1)
      pure (g.result c)
    let failing : Generator :=
      { name := "failing", program := fun _ => .finish (.error (.duplicateHintName "" "")) }
    let steps : List SessionStep :=
      [.edit (.add ⟨"a.cs"⟩ "class A;"), .run, .edit (.setText ⟨0⟩ "class A;"), .run,
        .edit (.setText ⟨0⟩ "struct B;"), .run, .edit (.setText ⟨0⟩ "class A;"), .run,
        .edit (.setText ⟨0⟩ "struct B;"), .edit (.setText ⟨0⟩ "class A;"), .run,
        .edit (.remove ⟨0⟩), .run, .run, .edit (.add ⟨"a.cs"⟩ "class A;"), .run]
    let runs := (ofGenerators [.stub, failing]).trace execute parser digest Registry.empty steps 0
    digest.TellsApart parser (Registry.empty.atRuns steps) ∧
      (∀ g c s, (execute g c s).1.reused = false) ∧
      runs.map (·.executed.length) = [2, 0, 2, 2, 0, 2, 0, 2] ∧
      runs.map (fun run => run.result.results.map (·.reused)) =
        [[false, false], [true, true], [false, false], [false, false], [true, true],
          [false, false], [true, true], [false, false]] ∧
      runs.map (·.registry) = Registry.empty.atRuns steps ∧
      RunTrace.Successive parser [.stub, failing] none runs := by
  intro digest parser execute failing steps runs
  have hdigest : digest.TellsApart parser (Registry.empty.atRuns steps) :=
    ⟨by decide +kernel, by decide +kernel⟩
  have hfresh (g : Generator) (c : Compilation) (s : Nat) : (execute g c s).1.reused = false :=
    g.reused_result c
  exact ⟨hdigest, hfresh, by decide +kernel, by decide +kernel,
    reused_iff_sources_eq [.stub, failing] steps hdigest hfresh 0⟩

end Host

end StubGen
