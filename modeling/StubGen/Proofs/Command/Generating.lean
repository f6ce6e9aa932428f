import StubGen.Command.Generate
import StubGen.Proofs.Command.Writing
import StubGen.Proofs.Generator.HintNames
import StubGen.Proofs.Host.Session

/-!
# Generating as a function of the disk

Generating first reads a configuration and the sources, which leaves the disk alone, and then
writes what the generators yield. As neither generator fails, nothing can go wrong after the
manifest is written.
-/

namespace StubGen

/-- What generating takes from the disk before it writes anything. -/
structure Reading where
  /-- The output directory. -/
  out : Path
  /-- The generators that run. -/
  generators : List Generator
  /-- The sources. -/
  registry : Registry

namespace Reading

variable (parser : Parser) (r : Reading)

/-- What the generators yield. -/
def results : List GeneratorResult := r.generators.map (·.result (r.registry.compilation parser))

/-- What is handed over after everything is written. -/
def summary : GenerateSummary where
  out := r.out
  manifest := .ofResults (r.results parser)
  syntaxErrors := FileErrors.count (ParsedFile.syntaxErrors (r.registry.parsed parser))

end Reading

/-- The configuration in the given file, or else that of the project directory. -/
def Disk.config (d : Disk) (directory : Path) : Option Path → Except ConfigError Config
  | some p => Config.ofFile d p
  | none => Config.ofProject d directory

/-- The registry of all sources of a project, if all can be loaded and there are some. -/
def Disk.registry? (d : Disk) (p : Path) (exclude : Option Path) : Option Registry :=
  (d.sources? p exclude).bind fun paths =>
    (Command.loadAll d .empty paths).toOption.filter fun r => !r.isEmpty

namespace GenerateOptions

/-- What generating takes from a disk, unless it fails before it writes anything. -/
def reading? (o : GenerateOptions) (d : Disk) : Option Reading :=
  let directory := Command.projectDirectory d o.path
  (d.config directory o.config).toOption.bind fun config =>
    let out := o.out.getD (directory.join config.outputDirectory)
    (d.registry? o.path (some out)).map fun registry =>
      { out, generators := config.generators o.only, registry }

end GenerateOptions

/-- A configuration and a choice of a generator let some of the two generators run. -/
theorem Config.generators_subset (c : Config) (only : Option GeneratorChoice) :
    c.generators only ⊆ Generator.all := by
  intro g hg
  cases only with
  | some choice =>
    obtain rfl := List.mem_singleton.mp hg
    cases choice <;> simp [GeneratorChoice.generator, Generator.all]
  | none =>
    rcases List.mem_append.mp hg with hstub | hannotated
    · split at hstub <;> simp_all [Generator.all]
    · split at hannotated <;> simp_all [Generator.all]

/-- The generators that run have different names. -/
theorem Config.nodup_generators (c : Config) (only : Option GeneratorChoice) :
    ((c.generators only).map (·.name)).Nodup := by
  cases only with
  | some choice => simp [generators]
  | none =>
    cases hstub : c.completesStub <;> cases hannotated : c.completesAnnotated <;>
      simp [generators, hstub, hannotated, Generator.stub, Generator.annotated]

/-- Neither of the two generators has the name of the manifest. -/
theorem Generator.name_ne_manifest {g : Generator} (hg : g ∈ all) :
    g.name ≠ Manifest.fileName.text := by
  rcases List.mem_pair.mp hg with rfl | rfl <;> decide

namespace Reading

variable {parser : Parser} {o : GenerateOptions} {d : Disk} {r : Reading}

/-- The generators that run come from a configuration. -/
theorem exists_generators_eq (h : o.reading? d = some r) :
    ∃ config : Config, r.generators = config.generators o.only := by
  obtain ⟨config, -, hrest⟩ := Option.bind_eq_some_iff.mp h
  obtain ⟨registry, -, rfl⟩ := Option.map_eq_some_iff.mp hrest
  exact ⟨config, rfl⟩

/-- The generators that run are among the two. -/
theorem generators_subset (h : o.reading? d = some r) : r.generators ⊆ Generator.all := by
  obtain ⟨config, hgenerators⟩ := exists_generators_eq h
  exact hgenerators ▸ config.generators_subset o.only

/-- Every result is that of a generator that runs. -/
theorem mem_results {result : GeneratorResult} :
    result ∈ r.results parser ↔
      ∃ g ∈ r.generators, g.result (r.registry.compilation parser) = result := List.mem_map

/-- The results are those of different generators. -/
theorem nodup_results (h : o.reading? d = some r) :
    ((r.results parser).map (·.generator)).Nodup := by
  obtain ⟨config, hgenerators⟩ := exists_generators_eq h
  have hnames : (r.results parser).map (·.generator) = r.generators.map (·.name) := by
    rw [results, List.map_map]
    exact List.map_congr_left fun g _ => Generator.generator_result g _
  rw [hnames, hgenerators]
  exact config.nodup_generators o.only

/-- The results can be written under their names, none of which is that of the manifest. -/
theorem wellNamed_results (h : o.reading? d = some r)
    (hslash : (r.registry.compilation parser).SlashFree) :
    ∀ result ∈ r.results parser,
      result.WellNamed ∧ result.generator ≠ Manifest.fileName.text := by
  intro result hresult
  obtain ⟨g, hg, rfl⟩ := mem_results.mp hresult
  have hall := generators_subset h hg
  exact ⟨Generator.wellNamed_result hall hslash,
    Generator.generator_result g _ ▸ Generator.name_ne_manifest hall⟩

end Reading

namespace Command

variable {α : Type}

/-- Reading a configuration leaves the disk alone. -/
theorem acts_loadConfig (directory : Path) (explicit : Option Path) :
    Acts (loadConfig directory explicit)
      fun d => (d.config directory explicit).toOption.map (·, d) := by
  refine acts_get_bind (g := fun seen d => (seen.config directory explicit).toOption.map (·, d))
    fun w => ?_
  have hread : (match explicit with
      | some p => Config.ofFile w.disk p
      | none => Config.ofProject w.disk directory) = w.disk.config directory explicit := by
    cases explicit <;> rfl
  dsimp only
  split
  · rename_i c hok
    rw [show w.disk.config directory explicit = .ok c from hread.symm.trans hok]
    exact acts_pure c
  · rename_i e herror
    rw [show w.disk.config directory explicit = .error e from hread.symm.trans herror]
    exact acts_throw _

/-- Loading the sources leaves the disk alone. -/
theorem acts_loadSources (p : Path) (exclude : Option Path) :
    Acts (loadSources p exclude) fun d => (d.registry? p exclude).map (·, d) := by
  -- What is loaded comes from the disk as it is seen first.
  let load (seen : Disk) (paths : List Path) (d : Disk) : Option (Registry × Disk) :=
    (loadAll seen .empty paths).toOption.bind fun r => if r.isEmpty then none else some (r, d)
  refine (acts_get_bind (g := fun seen d =>
    ((seen.sources? p exclude).map (·, d)).bind fun found => load seen found.1 found.2)
    fun w => (acts_require _ _).bind fun paths => ?_).congr fun d => ?_
  · cases hall : loadAll w.disk .empty paths with
    | error e => exact (acts_throw _).congr fun d => by simp [load, hall, Except.toOption]
    | ok r =>
      refine (acts_ite (fun _ => acts_throw _) fun _ => acts_pure r).congr fun d => ?_
      simp [load, hall, Except.toOption]
  simp only [Disk.registry?, Option.map_eq_bind, Option.bind_assoc, Function.comp_def,
    Option.bind_some, load]
  refine Option.bind_congr fun paths _ => ?_
  cases loadAll d .empty paths with
  | error e => rfl
  | ok r => cases hempty : r.isEmpty <;> simp [Except.toOption, Option.filter, hempty]

/-- The two generators do not fail. -/
theorem failures_ofGenerators {generators : List Generator} (h : generators ⊆ Generator.all)
    (c : Compilation) (syntaxErrors : List FileErrors) :
    RunResult.failures { results := generators.map (·.result c), syntaxErrors } = [] := by
  rw [RunResult.failures, List.filterMap_map, List.filterMap_eq_nil_iff]
  intro g hg
  simp [Generator.result_error (h hg) c]

/-- Failing over failures does nothing if there are none. -/
theorem prints_failOn_nil : Prints (failOn []) := fun w => ⟨w, rfl, rfl⟩

/-- The end of generating: writes what a run yielded, and reports on it. -/
def report (out : Path) (result : RunResult) : Command GenerateSummary := do
  let manifest ← writeOutputs out result
  manifest.files.forM fun entry => print ("    ✓ " ++ entry.path.text)
  failOn result.failures
  print ("\n  Finished " ++ toString manifest.files.length ++ " files into " ++ out.text)
  pure { out, manifest, syntaxErrors := result.errorCount }

/-- The end of generating writes, unless a generator fails. -/
theorem acts_report (out : Path) (result : RunResult) (hnone : result.failures = []) :
    Acts (report out result) fun d =>
      (Disk.writeOutputs? out result.results d).map
        (⟨out, .ofResults result.results, result.errorCount⟩, ·) := by
  unfold report
  rw [hnone]
  refine ((acts_writeOutputs out result).bind (g := fun manifest d =>
    some (⟨out, manifest, result.errorCount⟩, d)) fun manifest => ?_).congr fun d => ?_
  · refine (prints_forM (fun _ => prints_print _) _).acts_bind ?_
    exact prints_failOn_nil.acts_bind ((prints_print _).acts_bind (acts_pure _))
  · simp only [Option.map_eq_bind, Option.bind_assoc, Function.comp_def, Option.bind_some]

/-- Generating succeeds if reading and writing do, and hands over what was written. -/
theorem acts_generate (parser : Parser) (digest : Digest) (o : GenerateOptions) :
    Acts (generate parser digest o) fun d => (o.reading? d).bind fun r =>
      (Disk.writeOutputs? r.out (r.results parser) d).map (r.summary parser, ·) := by
  let write (out : Path) (config : Config) (registry : Registry) (d : Disk) :
      Option (GenerateSummary × Disk) :=
    let r : Reading := { out, generators := config.generators o.only, registry }
    (Disk.writeOutputs? r.out (r.results parser) d).map (r.summary parser, ·)
  let load (out : Path) (config : Config) (d : Disk) : Option (GenerateSummary × Disk) :=
    ((d.registry? o.path (some out)).map (·, d)).bind fun found => write out config found.1 found.2
  let outOf (seen : Disk) (config : Config) : Path :=
    o.out.getD ((projectDirectory seen o.path).join config.outputDirectory)
  unfold generate
  refine (acts_get_bind (g := fun seen d =>
    ((d.config (projectDirectory seen o.path) o.config).toOption.map (·, d)).bind fun read =>
      load (outOf seen read.1) read.1 read.2) fun w => ?_).congr fun d => ?_
  · refine (acts_loadConfig _ _).bind (g := fun config => load (outOf w.disk config) config)
      fun config => (prints_print _).acts_bind ?_
    refine (acts_loadSources _ _).bind (g := write (outOf w.disk config) config) fun registry =>
      (prints_print _).acts_bind ((prints_showSyntaxErrors _).acts_bind ?_)
    rw [Host.run_ofGenerators]
    have hreport := acts_report (outOf w.disk config)
      { results := Reading.results parser ⟨outOf w.disk config, config.generators o.only, registry⟩
        syntaxErrors := ParsedFile.syntaxErrors (registry.parsed parser) }
      (failures_ofGenerators (config.generators_subset o.only) _ _)
    dsimp only
    split
    · exact (prints_notify _).acts_bind hreport
    · exact hreport
  · simp only [GenerateOptions.reading?, load, write, outOf, Option.map_eq_bind, Option.bind_assoc,
      Function.comp_def, Option.bind_some]

/-- Generating leaves a disk and a summary exactly if something is read, the disk is that on which
the results are written, and the summary is that of what was read. -/
theorem run_generate_iff {parser : Parser} {digest : Digest} {o : GenerateOptions} {w : World}
    {summary : GenerateSummary} {d : Disk} :
    (∃ w', (generate parser digest o).run w = .ok summary w' ∧ w'.disk = d) ↔
      ∃ r, o.reading? w.disk = some r ∧ r.summary parser = summary ∧
        Disk.writeOutputs? r.out (r.results parser) w.disk = some d := by
  rw [acts_generate, Option.bind_eq_some_iff]
  refine exists_congr fun r => and_congr_right fun _ => ?_
  rw [Option.map_eq_some_iff]
  constructor
  · rintro ⟨d', hwrite, hpair⟩
    obtain ⟨rfl, rfl⟩ := Prod.mk.inj hpair
    exact ⟨rfl, hwrite⟩
  · rintro ⟨rfl, hwrite⟩
    exact ⟨d, hwrite, rfl⟩

end Command

end StubGen
