import StubGen.Proofs.Command.Generating
import StubGen.Proofs.Command.Rewriting
import StubGen.Proofs.Discovery.Found
import StubGen.Proofs.Registry.Loading

/-!
# Generating once more

Generating writes into the output directory only, apart from making that directory, and the
search for sources does not look into it. So when a project is generated again, the same
configuration and the same sources are read, the generators yield the same, and writing it
leaves the disk as it is.
-/

namespace StubGen

open StubGen.Path (IsName)

namespace Disk

variable {d d' : Disk} {out : Path} {results : List GeneratorResult}

/-- What every step of a run keeps is kept by the run. -/
theorem keeps_of_writeOutputs? {kept : Disk → Prop}
    (hmake : ∀ {d p d'}, kept d → d.make? p = some d' → kept d')
    (hclear : ∀ {d p d'}, kept d → d.clear? p = some d' → kept d')
    (hwrite : ∀ {d : Disk} {p content d'}, kept d → d.writeBytes? p content = some d' → kept d')
    (hd : kept d) (h : writeOutputs? out results d = some d') : kept d' := by
  have hfragments {directory : Path} {fragments : List Fragment} {d d' : Disk} (hd : kept d)
      (h : writeFragments? directory fragments d = some d') : kept d' := by
    induction fragments generalizing d with
    | nil => exact Option.some.inj h ▸ hd
    | cons f rest ih =>
      obtain ⟨first, hfirst, hlater⟩ := Option.bind_eq_some_iff.mp h
      exact ih (hwrite hd hfirst) hlater
  have hresult {r : GeneratorResult} {d d' : Disk} (hd : kept d)
      (h : writeResult? out r d = some d') : kept d' := by
    obtain ⟨cleared, hcleared, ⟨-, rfl⟩ | ⟨-, made, hmade, hwritten⟩⟩ := writeResult?_eq_some h
    · exact hclear hd hcleared
    · exact hfragments (hmake (hclear hd hcleared) hmade) hwritten
  have hresults {results : List GeneratorResult} {d d' : Disk} (hd : kept d)
      (h : writeResults? out results d = some d') : kept d' := by
    induction results generalizing d with
    | nil => exact Option.some.inj h ▸ hd
    | cons r rest ih =>
      obtain ⟨first, hfirst, hlater⟩ := Option.bind_eq_some_iff.mp h
      exact ih (hresult hd hfirst) hlater
  obtain ⟨made, written, hmade, hwritten, hlast⟩ := writeOutputs?_eq_some h
  exact hwrite (hresults (hmake hd hmade) hwritten) hlast

/-- A run leaves names that paths can lead to. -/
theorem WellNamed.writeOutputs? (hd : d.WellNamed) (h : writeOutputs? out results d = some d') :
    d'.WellNamed := by
  refine keeps_of_writeOutputs? (fun {d p d'} hd hmake => ?_) (fun {d p d'} hd hclear => ?_)
    (fun hd hwrite => hd.writeBytes? hwrite) hd h
  · rw [make?] at hmake
    split at hmake
    · exact Option.some.inj hmake ▸ hd.makeDirectories p
    · contradiction
  · rw [Disk.clear?] at hclear
    split at hclear
    · exact hd.removeDirectory? hclear
    · exact Option.some.inj hclear ▸ hd

/-- A run leaves every name once in its directory. -/
theorem Distinct.writeOutputs? (hd : d.Distinct) (h : writeOutputs? out results d = some d') :
    d'.Distinct :=
  keeps_of_writeOutputs? Distinct.make? Distinct.clear? (fun hd hwrite => hd.writeBytes? hwrite) hd h

/-- A run changes what is below the output directory, and otherwise makes directories. -/
theorem growsOutside_of_writeOutputs? (hresults : ∀ r ∈ results, r.WellNamed)
    (h : writeOutputs? out results d = some d') : GrowsOutside out d d' := by
  obtain ⟨hworking, hgrows⟩ := grows_of_writeOutputs? hresults h
  refine ⟨hworking, fun place hout => hgrows place ?_ fun r _ hin => ?_⟩
  · rintro rfl
    simpa using hout (List.prefix_append _ _)
  · obtain rfl := hout ((List.prefix_append _ _).trans hin)
    have hlength := hin.length_le
    rw [List.length_append, List.length_singleton] at hlength
    omega

variable {p e : Path}

/-- A configuration that stands beside `e` is read as before. -/
theorem GrowsOutside.config (h : GrowsOutside e d d') (hp : d.isDirectory p = true)
    (hp' : d'.isDirectory p = true) {inner : List String} (hinner : inner ≠ [])
    (he : e.components = p.components ++ inner.map .name) :
    Config.ofProject d' p = Config.ofProject d p := by
  have hname : IsName Config.fileName.text := by decide
  have hbytes : d'.bytes? (p.join Config.fileName) = d.bytes? (p.join Config.fileName) := by
    refine h.bytes?_extend (isDirectory_iff.mp hp).2 (isDirectory_iff.mp hp').2
      [Config.fileName.text] (by simp) (by simpa using hname) fun hin => ?_
    -- Where the file would stand in the place of `e` itself.
    rw [resolved_of_components he, List.prefix_append_right_inj] at hin
    have hlength : inner.length = 1 := by
      have := List.length_pos_iff.mpr hinner
      have := hin.length_le
      simp only [List.length_singleton] at this
      omega
    rw [resolved_of_components he, hin.eq_of_length hlength]
  have htext : d'.text? (p.join Config.fileName) = d.text? (p.join Config.fileName) := by
    rw [text?, text?, hbytes]
  unfold Config.ofProject Config.ofFile isFile
  rw [hbytes, htext]

/-- The sources of a project that do not stand below `e` are loaded as before. -/
theorem GrowsOutside.registry? (h : GrowsOutside e d d') (hnamed : d.WellNamed)
    (hdistinct : d.Distinct) (hp : d.isDirectory p = true) (hnamed' : d'.WellNamed)
    (hdistinct' : d'.Distinct) (hp' : d'.isDirectory p = true) {inner : List String}
    (he : e.components = p.components ++ inner.map .name) :
    d'.registry? p (some e) = d.registry? p (some e) := by
  obtain ⟨paths, hsources, hsources', hbytes⟩ :=
    h.sources? hnamed hdistinct hp hnamed' hdistinct' hp' he
  have hload : Command.loadAll d' .empty paths = Command.loadAll d .empty paths :=
    Command.loadAll_congr (by simp [Registry.empty]) fun f hf => by
      rw [text?, text?, hbytes f hf]
  rw [Disk.registry?, Disk.registry?, hsources, hsources', Option.bind_some, Option.bind_some, hload]

end Disk

/-- A result that is there as an option is a success. -/
theorem Except.toOption_eq_some {ε α : Type} {outcome : Except ε α} {a : α}
    (h : outcome.toOption = some a) : outcome = .ok a := by
  cases outcome with
  | ok b => exact congrArg Except.ok (Option.some.inj h)
  | error e => contradiction

/-- A project in a directory, whose output directory is given by names and whose sources have
no slash in the name of a type or a method. -/
structure Disk.PlainProject (parser : Parser) (d : Disk) (p : Path) : Prop where
  directory : d.isDirectory p = true
  output : ∀ config, Config.ofProject d p = .ok config →
    ∃ names, names ≠ [] ∧ config.outputDirectory.components = names.map .name
  sources : ∀ config paths registry, Config.ofProject d p = .ok config →
    d.sources? p (some (p.join config.outputDirectory)) = some paths →
    Command.loadAll d .empty paths = .ok registry → (registry.compilation parser).SlashFree

namespace Command

variable {parser : Parser} {digest : Digest} {o : GenerateOptions}

/-- What generating reads of a project in a directory, with everything configured there. -/
theorem reading?_eq {d : Disk} (hp : d.isDirectory o.path = true) (hout : o.out = none)
    (hconfig : o.config = none) :
    o.reading? d = (Config.ofProject d o.path).toOption.bind fun config =>
      (d.registry? o.path (some (o.path.join config.outputDirectory))).map fun registry =>
        ⟨o.path.join config.outputDirectory, config.generators o.only, registry⟩ := by
  have hfile : d.isFile o.path = false := by
    obtain ⟨entries, hentries⟩ := Option.isSome_iff_exists.mp hp
    rw [Disk.entries?] at hentries
    rw [Disk.isFile, Disk.bytes?]
    split at hentries
    · rename_i hentry
      rw [hentry]
      rfl
    · contradiction
  rw [GenerateOptions.reading?, projectDirectory, hfile, hout, hconfig]
  rfl

/-- What generating reads of a plain project. -/
structure ReadsPlain (parser : Parser) (o : GenerateOptions) (d : Disk) (r : Reading)
    (config : Config) (inner : List String) : Prop where
  isDirectory : d.isDirectory o.path = true
  config_eq : Config.ofProject d o.path = .ok config
  registry_eq : d.registry? o.path (some r.out) = some r.registry
  out_eq : r.out = o.path.join config.outputDirectory
  generators_eq : r.generators = config.generators o.only
  /-- The output directory goes on from the project with names. -/
  isRelative : config.outputDirectory.isAbsolute = false
  inner_ne_nil : inner ≠ []
  components_eq : r.out.components = o.path.components ++ inner.map .name
  slashFree : (r.registry.compilation parser).SlashFree

/-- A plain project is read from its directory. -/
theorem readsPlain_of_reading? {d : Disk} {r : Reading} (hproject : d.PlainProject parser o.path)
    (hout : o.out = none) (hconfig : o.config = none) (h : o.reading? d = some r) :
    ∃ config inner, ReadsPlain parser o d r config inner := by
  obtain ⟨hp, houtput, hsources⟩ := hproject
  rw [reading?_eq hp hout hconfig] at h
  obtain ⟨config, hok, hrest⟩ := Option.bind_eq_some_iff.mp h
  obtain ⟨registry, hregistry, rfl⟩ := Option.map_eq_some_iff.mp hrest
  have hconfigured := Except.toOption_eq_some hok
  obtain ⟨inner, hinner, hcomponents⟩ := houtput config hconfigured
  obtain ⟨hrelative, he⟩ := Path.components_join_names
    (Disk.text_ne_empty_of_isDirectory hp) hinner hcomponents
  obtain ⟨paths, hpaths, hload⟩ := Option.bind_eq_some_iff.mp hregistry
  have hloaded := Except.toOption_eq_some (Option.filter_eq_some_iff.mp hload).1
  exact ⟨config, inner, hp, hconfigured, hregistry, rfl, rfl, hrelative, hinner, he,
    hsources config paths registry hconfigured hpaths hloaded⟩

/-- After a plain project was generated, the same is read of it, whichever generators are then to
run. -/
theorem ReadsPlain.reading?_after {d d' : Disk} {r : Reading} {config : Config}
    {inner : List String} (h : ReadsPlain parser o d r config inner) (hout : o.out = none)
    (hconfig : o.config = none) (hnamed : d.WellNamed) (hdistinct : d.Distinct)
    (hresults : ∀ result ∈ r.results parser, result.WellNamed)
    (hwrite : Disk.writeOutputs? r.out (r.results parser) d = some d')
    (only : Option GeneratorChoice) :
    { o with only }.reading? d' = some { r with generators := config.generators only } := by
  have hgrows := Disk.growsOutside_of_writeOutputs? hresults hwrite
  have hopen := (Disk.open_of_writeOutputs? hresults hwrite).1
  have hp' : d'.isDirectory o.path = true := by
    refine Disk.isDirectory_iff.mpr ⟨(Disk.isDirectory_iff.mp h.isDirectory).1, ?_⟩
    intro place hplace
    refine hopen place ?_
    rw [h.out_eq]
    exact (Disk.mem_way_join h.isRelative).mpr (.inl hplace)
  have hregistry : d'.registry? o.path (some r.out) = some r.registry := by
    rw [hgrows.registry? hnamed hdistinct h.isDirectory (hnamed.writeOutputs? hwrite)
      (hdistinct.writeOutputs? hwrite) hp' h.components_eq, h.registry_eq]
  have hconfig' : Config.ofProject d' o.path = .ok config := by
    rw [hgrows.config h.isDirectory hp' h.inner_ne_nil h.components_eq, h.config_eq]
  refine (reading?_eq (o := { o with only }) hp' hout hconfig).trans ?_
  rw [h.out_eq] at hregistry
  rw [hconfig', h.out_eq]
  exact congrArg (Option.map _) hregistry

/-- Generating once more changes nothing. If a project is generated into its configured output
directory, and this succeeds, then generating it again with the same options succeeds, hands
over the same output directory, manifest and number of syntax errors, and leaves the same at
every place of the disk. -/
theorem generate_again {w w' : World} {summary : GenerateSummary} (hnamed : w.disk.WellNamed)
    (hdistinct : w.disk.Distinct) (hproject : w.disk.PlainProject parser o.path)
    (hout : o.out = none) (hconfig : o.config = none)
    (hrun : (generate parser digest o).run w = .ok summary w') :
    ∃ w'', (generate parser digest o).run w' = .ok summary w'' ∧ w''.disk.Same w'.disk := by
  obtain ⟨r, hread, rfl, hwrite⟩ := run_generate_iff.mp ⟨w', hrun, rfl⟩
  obtain ⟨config, inner, hplain⟩ := readsPlain_of_reading? hproject hout hconfig hread
  have hresults := r.wellNamed_results hread hplain.slashFree
  have hnames : ∀ result ∈ r.results parser, result.WellNamed := fun result hresult =>
    (hresults result hresult).1
  have hread' : o.reading? w'.disk = some r := by
    have hafter := hplain.reading?_after hout hconfig hnamed hdistinct hnames hwrite o.only
    rwa [← hplain.generators_eq] at hafter
  -- The output directory is reached from where the project is.
  have hstart : w.disk.root.occupant? (w.disk.startOf r.out) = some .directory := by
    rw [hplain.out_eq, Disk.startOf_join _ _ hplain.isRelative]
    exact (Disk.isDirectory_iff.mp hplain.isDirectory).2 _ (Disk.start_mem_wayAlong _ _)
  obtain ⟨e, hwrite', hsame⟩ := Disk.writeOutputs?_again hstart hnames (r.nodup_results hread)
    (fun result hresult => (hresults result hresult).2) hwrite
  obtain ⟨w'', hrun', rfl⟩ := run_generate_iff.mpr ⟨r, hread', rfl, hwrite'⟩
  exact ⟨w'', hrun', hsame⟩

/-- A file with a greeting stub. -/
def greetingText : String := "partial class G{static partial void SayHelloTo(string a);}"

/-- The declarations of that file. -/
def greetingTree : Tree :=
  .ofForest ⟨0⟩ ⟨0, 58⟩ (.cons
    { kind := .typeDeclaration .classType, span := ⟨0, 58⟩, name := "G"
      modifiers := ⟨["partial"], some "partial"⟩ }
    (.cons
      { kind := .methodDeclaration, span := ⟨16, 57⟩, name := "SayHelloTo"
        modifiers := ⟨["static", "partial"], some "static partial"⟩
        returnType := some (.keyword .void)
        parameters := [{ name := "a", type := some (.keyword .string) }] } .nil .nil) .nil)

/-- A parser that expects no other file. -/
def greetingParser : Parser := fun _ _ => { tree := some greetingTree, errors := [] }

/-- A disk with a project of that file. -/
def greetingDisk : Disk :=
  .ofWorking ["home"] (.directory "proj" (.file "G.cs" greetingText.toUTF8 .empty) .empty)

/-- What generating takes from that project. -/
def greetingReading (only : Option GeneratorChoice) : Reading where
  out := Path.join ⟨"proj"⟩ ({} : Config).outputDirectory
  generators := Config.generators {} only
  registry :=
    { files := [{ id := ⟨0⟩, path := ⟨"proj/G.cs"⟩, text := greetingText, revision := 1 }]
      paths := [(⟨"proj/G.cs"⟩, ⟨0⟩)], next := 1 }

/-- The only source of the project is found. -/
theorem sources?_greeting :
    greetingDisk.sources? ⟨"proj"⟩ (some (greetingReading none).out) = some [⟨"proj/G.cs"⟩] := by
  have hentries : greetingDisk.entries? ⟨"proj"⟩ =
      some (.file "G.cs" greetingText.toUTF8 .empty) := by decide +kernel
  exact Disk.sources?_of_sorted hentries (by decide +kernel) (by decide +kernel)
    (List.pairwise_singleton _ _)

/-- It is loaded. -/
theorem loadAll_greeting :
    loadAll greetingDisk .empty [⟨"proj/G.cs"⟩] = .ok (greetingReading none).registry :=
  Except.toOption_eq_some (by decide +kernel)

/-- The project is a plain one. -/
theorem plainProject_greeting : greetingDisk.PlainProject greetingParser ⟨"proj"⟩ where
  directory := by decide +kernel
  output config hconfig := by
    obtain rfl : {} = config := Except.ok.inj hconfig
    exact ⟨["Generated"], by decide, by decide +kernel⟩
  sources config paths registry hconfig hpaths hload := by
    obtain rfl : {} = config := Except.ok.inj hconfig
    obtain rfl := Option.some.inj (sources?_greeting.symm.trans hpaths)
    obtain rfl := Except.ok.inj (loadAll_greeting.symm.trans hload)
    decide +kernel

/-- What is read of the project. -/
theorem reading?_greeting (only : Option GeneratorChoice) :
    GenerateOptions.reading? { path := ⟨"proj"⟩, only } greetingDisk = some (greetingReading only) := by
  have hconfig : Config.ofProject greetingDisk ⟨"proj"⟩ = .ok {} := rfl
  have hout : (greetingReading none).out = Path.join ⟨"proj"⟩ ({} : Config).outputDirectory := rfl
  have hregistry : greetingDisk.registry? ⟨"proj"⟩ (some (greetingReading none).out) =
      some (greetingReading none).registry := by
    rw [Disk.registry?, sources?_greeting, Option.bind_some, loadAll_greeting]
    rfl
  refine (reading?_eq plainProject_greeting.directory rfl rfl).trans ?_
  rw [hout] at hregistry
  rw [hconfig]
  exact Option.bind_eq_some_iff.mpr ⟨{}, rfl, Option.map_eq_some_iff.mpr ⟨_, hregistry, rfl⟩⟩

/-- What is read and can be written is generated. -/
theorem exists_run_of_writeOutputs? {only : Option GeneratorChoice} {w : World} {d : Disk}
    (hread : GenerateOptions.reading? { path := ⟨"proj"⟩, only } w.disk = some (greetingReading only))
    (hwrite : Disk.writeOutputs? (greetingReading only).out
      ((greetingReading only).results greetingParser) w.disk = some d) :
    ∃ w', (generate greetingParser .standard { path := ⟨"proj"⟩, only }).run w =
      .ok ((greetingReading only).summary greetingParser) w' ∧ w'.disk = d :=
  run_generate_iff.mpr ⟨_, hread, rfl, hwrite⟩

/-- The project with one greeting stub is generated, and generating it again changes nothing. -/
theorem generate_again_of_greeting :
    (greetingDisk.WellNamed ∧ greetingDisk.Distinct ∧
        greetingDisk.PlainProject greetingParser ⟨"proj"⟩) ∧
      ∃ summary w', (generate greetingParser .standard { path := ⟨"proj"⟩ }).run
          { disk := greetingDisk } = .ok summary w' ∧
        summary.manifest.files.map (·.path) = [⟨"partial-method/G.g.cs"⟩] ∧
        ∃ w'', (generate greetingParser .standard { path := ⟨"proj"⟩ }).run w' =
          .ok summary w'' ∧ w''.disk.Same w'.disk := by
  have hnamed : greetingDisk.WellNamed := by decide +kernel
  have hdistinct : greetingDisk.Distinct := by decide +kernel
  obtain ⟨d, hwrite⟩ : ∃ d, Disk.writeOutputs? (greetingReading none).out
      ((greetingReading none).results greetingParser) greetingDisk = some d :=
    Option.isSome_iff_exists.mp (by decide +kernel)
  obtain ⟨w', hrun, -⟩ := exists_run_of_writeOutputs? (w := { disk := greetingDisk })
    (reading?_greeting none) hwrite
  refine ⟨⟨hnamed, hdistinct, plainProject_greeting⟩, _, w', hrun, by decide +kernel, ?_⟩
  exact generate_again hnamed hdistinct plainProject_greeting rfl rfl hrun

end Command

end StubGen
