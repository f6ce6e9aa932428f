import StubGen.Proofs.Command.Realised
import StubGen.Proofs.Command.Regenerating

/-!
# One generation after another

Generating clears the directories of the generators that run and no other, but writes the
manifest anew. So below the directory of a generator stand the files that the last generation
with this generator listed, whatever was generated since. The manifest tells of all files below
the directories of the generators as long as no generator was left out of the last generation
that has files from an earlier one.
-/

namespace StubGen

open StubGen.Path (IsName)

namespace Disk

variable {d d' : Disk} {out : Path} {results : List GeneratorResult}

/-- A name in an output directory that can be looked at and that is not on the way to the output
directory. -/
structure Aside (d : Disk) (out : Path) (name : String) : Prop where
  accepted : accepts (out.join ⟨name⟩) = true
  beside : ∀ place ∈ d.way out, ¬ d.resolved out ++ [name] <+: place

/-- Which names are aside depends on the working directory only. -/
theorem Aside.congr {e : Disk} {name : String} (h : d.Aside out name) (hworking : e.working = d.working) :
    e.Aside out name := by
  refine ⟨h.accepted, ?_⟩
  rw [way_congr hworking, resolved_congr hworking]
  exact h.beside

/-- The directory of a generator aside can be cleared. -/
theorem Aside.clearable {r : GeneratorResult} (h : d.Aside out r.generator) : d.Clearable out r :=
  ⟨fun place hway hbelow => absurd hbelow (h.beside place hway), .inl h.accepted⟩

end Disk

namespace GeneratorResult

variable {results : List GeneratorResult} {r : GeneratorResult} {e : ManifestEntry}

/-- The entries of a result carry the name of its generator and lead to files in its
directory. -/
theorem WellNamed.entry (hr : r.WellNamed) (he : e ∈ r.entries) :
    e.generator = r.generator ∧ e.path.pieces = [r.generator, e.hintName] := by
  obtain ⟨f, hf, rfl⟩ := List.mem_map.mp he
  have hhint := hr.hintNames f hf
  obtain ⟨before, hjoin, hbefore⟩ := Path.pieces_join ⟨r.generator⟩ hhint.isAbsolute
  rw [hr.generator.pieces] at hbefore
  refine ⟨rfl, ?_⟩
  rcases hbefore with rfl | hslash
  · exact hjoin.trans (by rw [hhint.pieces]; rfl)
  · -- The name of the generator does not end in a slash.
    have hlast : [] ++ [r.generator] = before ++ [""] := hslash
    obtain ⟨rfl, hempty⟩ := List.append_inj' hlast rfl
    exact absurd (List.singleton_injective hempty) hr.generator.ne_empty

/-- The entries of the manifest under the name of a generator are those of its result. -/
theorem mem_files_ofResults (hresults : ∀ r ∈ results, r.WellNamed)
    (hdistinct : (results.map (·.generator)).Nodup) (hr : r ∈ results) :
    e ∈ (Manifest.ofResults results).files ∧ e.generator = r.generator ↔ e ∈ r.entries := by
  constructor
  · rintro ⟨he, hgenerator⟩
    obtain ⟨s, hs, he⟩ := List.mem_flatMap.mp he
    have hsame := ((hresults s hs).entry he).1.symm.trans hgenerator
    exact List.inj_on_of_nodup_map hdistinct hs hr hsame ▸ he
  · exact fun he => ⟨List.mem_flatMap.mpr ⟨r, hr, he⟩, ((hresults r hr).entry he).1⟩

end GeneratorResult

/-- Growing brings no files and takes none away. -/
theorem Directory.hasFile_congr {before after : Directory} {place : List String}
    (h : Occupant.Grows (before.occupant? place) (after.occupant? place)) :
    after.HasFile place ↔ before.HasFile place := exists_congr fun _ => h.file_iff

namespace Disk

variable {d d' : Disk} {out : Path} {results : List GeneratorResult}

/-- After a run, the files in the directories of generators aside are exactly those that the
manifest lists under the names of these generators. -/
theorem hasFile_of_writeOutputs? (hstart : d.root.occupant? (d.startOf out) = some .directory)
    (hresults : ∀ r ∈ results, r.WellNamed ∧ r.generator ≠ Manifest.fileName.text)
    (haside : ∀ r ∈ results, d.Aside out r.generator)
    (hdistinct : (results.map (·.generator)).Nodup) (h : writeOutputs? out results d = some d')
    {r : GeneratorResult} (hr : r ∈ results) {place : List String}
    (hbelow : d.resolved out ++ [r.generator] <+: place) :
    d'.root.HasFile place ↔ ∃ e ∈ (Manifest.ofResults results).files,
      e.generator = r.generator ∧ d.resolved out ++ e.path.pieces = place := by
  have hnames r hr := (hresults r hr).1
  have hexactly := (holdsExactly_of_writeOutputs?_iff hstart hresults hdistinct h).mpr
    fun r hr => (haside r hr).clearable
  have hfile := (hexactly r hr).file_iff hbelow
  have hentry (e : ManifestEntry) := GeneratorResult.mem_files_ofResults (e := e) hnames hdistinct hr
  have hplace {f : Fragment} (hf : f ∈ r.sources) :
      (Command.entryOf r.generator f).path.pieces = [r.generator, f.hintName] :=
    ((hnames r hr).entry (List.mem_map_of_mem hf)).2
  constructor
  · rintro ⟨content, hthere⟩
    obtain ⟨f, hf, rfl, -⟩ := (hfile content).mp hthere
    obtain ⟨hmem, hgenerator⟩ := (hentry _).mpr (List.mem_map_of_mem hf)
    exact ⟨_, hmem, hgenerator, by simp [hplace hf]⟩
  · rintro ⟨e, he, hgenerator, rfl⟩
    obtain ⟨f, hf, rfl⟩ := List.mem_map.mp ((hentry e).mp ⟨he, hgenerator⟩)
    exact ⟨_, (hfile _).mpr ⟨f, hf, by simp [hplace hf], rfl⟩⟩

end Disk

/-- One generation, told by what it leaves to be known. -/
structure Generation where
  /-- The names of the generators that ran. -/
  generators : List String
  manifest : Manifest

/-- What the last generation that ran a generator listed of its files. The generations are given
latest first. -/
def lastListed (name : String) : List Generation → List ManifestEntry
  | [] => []
  | last :: earlier =>
    if name ∈ last.generators then last.manifest.files.filter (·.generator = name)
    else lastListed name earlier

/-- A path to the output directory at a place. It starts in a directory, and the directories of
the generators are aside. -/
structure Disk.LeadsTo (d : Disk) (out : Path) (place : List String) : Prop where
  resolved : d.resolved out = place
  start : d.root.occupant? (d.startOf out) = some .directory
  aside : ∀ g ∈ Generator.all, d.Aside out g.name

/-- A path that led to an output directory still leads to it after a run. -/
theorem Disk.LeadsTo.writeOutputs? {d d' : Disk} {out : Path} {place : List String}
    {results : List GeneratorResult} (h : d.LeadsTo out place)
    (hresults : ∀ r ∈ results, r.WellNamed) (hwrite : writeOutputs? out results d = some d') :
    d'.LeadsTo out place where
  resolved := (resolved_congr (grows_of_writeOutputs? hresults hwrite).1 out).trans h.resolved
  start := (open_of_writeOutputs? hresults hwrite).1 _ (start_mem_wayAlong _ _)
  aside g hg := (h.aside g hg).congr (grows_of_writeOutputs? hresults hwrite).1

namespace Reading

variable {parser : Parser} {o : GenerateOptions} {r : Reading} {d d' : Disk} {place : List String}
  {g : Generator} {inner : List String}

variable (hread : o.reading? d = some r) (hslash : (r.registry.compilation parser).SlashFree)
  (hout : d.LeadsTo r.out place)
  (hwrite : Disk.writeOutputs? r.out (r.results parser) d = some d')
include hread hslash hout hwrite

/-- A generation with a generator leaves exactly the files in its directory that it lists of it. -/
theorem hasFile_of_ran (hran : g.name ∈ r.generators.map (·.name))
    (hbelow : place ++ [g.name] <+: inner) :
    d'.root.HasFile inner ↔ ∃ e ∈ (r.summary parser).manifest.files,
      e.generator = g.name ∧ place ++ e.path.pieces = inner := by
  obtain ⟨other, hother, hname⟩ := List.mem_map.mp hran
  have haside : ∀ result ∈ r.results parser, d.Aside r.out result.generator := by
    intro result hresult
    obtain ⟨g, hg, rfl⟩ := mem_results.mp hresult
    exact Generator.generator_result g _ ▸ hout.aside g (generators_subset hread hg)
  have hgenerator : (other.result (r.registry.compilation parser)).generator = g.name :=
    (Generator.generator_result other _).trans hname
  have hin : d.resolved r.out ++ [(other.result (r.registry.compilation parser)).generator] <+:
      inner := by rwa [hout.resolved, hgenerator]
  have hfile := Disk.hasFile_of_writeOutputs? hout.start (r.wellNamed_results hread hslash) haside
    (r.nodup_results hread) hwrite (mem_results.mpr ⟨other, hother, rfl⟩) hin
  rwa [hout.resolved, hgenerator] at hfile

/-- A generation without a generator leaves the files in its directory as they are. -/
theorem hasFile_of_left_out (hg : g ∈ Generator.all) (hran : g.name ∉ r.generators.map (·.name))
    (hbelow : place ++ [g.name] <+: inner) : d'.root.HasFile inner ↔ d.root.HasFile inner := by
  obtain ⟨-, hkeeps⟩ := Disk.grows_of_writeOutputs?
    (fun result hresult => (r.wellNamed_results hread hslash result hresult).1) hwrite
  rw [hout.resolved] at hkeeps
  refine Directory.hasFile_congr (hkeeps inner ?_ fun result hresult hin => ?_)
  · rintro rfl
    exact Generator.name_ne_manifest hg (Disk.name_eq_of_below hbelow (List.prefix_refl _))
  · obtain ⟨other, hother, rfl⟩ := mem_results.mp hresult
    rw [Generator.generator_result] at hin
    exact hran (Disk.name_eq_of_below hbelow hin ▸ List.mem_map_of_mem hother)

end Reading

/-- The generations into the output directory at a place, latest first, and the world after
them. At first there are no directories of generators in it. Before each generation everything
may change that is not below these directories, so each may have sources, a configuration and
a choice of generators of its own. -/
inductive History (parser : Parser) (digest : Digest) (place : List String) :
    List Generation → World → Prop
  | start {w : World}
      (hnone : ∀ g ∈ Generator.all, w.disk.root.occupant? (place ++ [g.name]) = none) :
      History parser digest place [] w
  | run {runs : List Generation} {w w' w'' : World} {o : GenerateOptions} {r : Reading}
      {summary : GenerateSummary} (before : History parser digest place runs w)
      (hkept : ∀ g ∈ Generator.all, ∀ inner, place ++ [g.name] <+: inner →
        w'.disk.root.occupant? inner = w.disk.root.occupant? inner)
      (hread : o.reading? w'.disk = some r) (hout : w'.disk.LeadsTo r.out place)
      (hslash : (r.registry.compilation parser).SlashFree)
      (hrun : (Command.generate parser digest o).run w' = .ok summary w'') :
      History parser digest place (⟨r.generators.map (·.name), summary.manifest⟩ :: runs) w''

/-- The files below the directories of the generators are exactly those that the manifest
lists. -/
def Manifest.Describes (m : Manifest) (root : Directory) (place : List String) : Prop :=
  ∀ names, (root.HasFile (place ++ names) ∧ ∃ g ∈ Generator.all, [g.name] <+: names) ↔
    ∃ e ∈ m.files, e.path.pieces = names

namespace History

variable {parser : Parser} {digest : Digest} {place : List String} {runs : List Generation}
  {w : World}

/-- A generation writes the results of what it reads and hands over their summary. -/
theorem writeOutputs?_of_run {o : GenerateOptions} {r : Reading} {summary : GenerateSummary}
    {w' : World} (hread : o.reading? w.disk = some r)
    (hrun : (Command.generate parser digest o).run w = .ok summary w') :
    summary = r.summary parser ∧
      Disk.writeOutputs? r.out (r.results parser) w.disk = some w'.disk := by
  obtain ⟨_, hread', rfl, hwrite⟩ := Command.run_generate_iff.mp ⟨w', hrun, rfl⟩
  obtain rfl := Option.some.inj (hread.symm.trans hread')
  exact ⟨rfl, hwrite⟩

/-- The entries of a manifest belong to generators that ran, and lead to files in their
directories. -/
theorem entry (h : History parser digest place runs w) {run : Generation} (hrun : run ∈ runs)
    {e : ManifestEntry} (he : e ∈ run.manifest.files) :
    e.generator ∈ run.generators ∧ (∃ g ∈ Generator.all, g.name = e.generator) ∧
      e.path.pieces = [e.generator, e.hintName] := by
  induction h with
  | start => contradiction
  | @run runs w w' w'' o r summary _ _ hread _ hslash hgenerate ih =>
    rcases List.mem_cons.mp hrun with rfl | hrun
    · obtain ⟨rfl, -⟩ := writeOutputs?_of_run hread hgenerate
      obtain ⟨result, hresult, he⟩ := List.mem_flatMap.mp he
      obtain ⟨hgenerator, hpieces⟩ := (r.wellNamed_results hread hslash result hresult).1.entry he
      obtain ⟨g, hg, rfl⟩ := Reading.mem_results.mp hresult
      rw [Generator.generator_result] at hgenerator hpieces
      refine ⟨hgenerator ▸ List.mem_map_of_mem hg,
        ⟨g, Reading.generators_subset hread hg, hgenerator.symm⟩, hgenerator ▸ hpieces⟩
    · exact ih hrun

/-- What is listed last of a generator comes from one of the generations. -/
theorem mem_lastListed {name : String} {e : ManifestEntry} (he : e ∈ lastListed name runs) :
    e.generator = name ∧ ∃ run ∈ runs, e ∈ run.manifest.files := by
  induction runs with
  | nil => contradiction
  | cons last earlier ih =>
    rw [lastListed] at he
    split at he
    · obtain ⟨he, hgenerator⟩ := List.mem_filter.mp he
      exact ⟨of_decide_eq_true hgenerator, last, List.mem_cons_self, he⟩
    · obtain ⟨hgenerator, run, hrun, he⟩ := ih he
      exact ⟨hgenerator, run, List.mem_cons_of_mem _ hrun, he⟩

/-- Below the directory of a generator stand the files that were listed of it last. -/
theorem hasFile_iff (h : History parser digest place runs w) {g : Generator}
    (hg : g ∈ Generator.all) {inner : List String} (hbelow : place ++ [g.name] <+: inner) :
    w.disk.root.HasFile inner ↔
      ∃ e ∈ lastListed g.name runs, place ++ e.path.pieces = inner := by
  induction h with
  | start hnone =>
    obtain ⟨more, rfl⟩ := hbelow
    refine iff_of_false (fun ⟨content, hfile⟩ => ?_) (by simp [lastListed])
    exact Directory.occupant?_ne_none_of_append (hfile ▸ Option.some_ne_none _) (hnone g hg)
  | @run runs w w' w'' o r summary before hkept hread hout hslash hrun ih =>
    obtain ⟨rfl, hwrite⟩ := writeOutputs?_of_run hread hrun
    by_cases hran : g.name ∈ r.generators.map (·.name)
    · rw [Reading.hasFile_of_ran hread hslash hout hwrite hran hbelow, lastListed, if_pos hran]
      simp [and_assoc]
    · rw [Reading.hasFile_of_left_out hread hslash hout hwrite hg hran hbelow, lastListed,
        if_neg hran, ← ih, Directory.HasFile, Directory.HasFile, hkept g hg inner hbelow]

/-- The files below the directories of the generators are those that were listed last of each
generator. -/
theorem describes_lastListed (h : History parser digest place runs w) :
    Manifest.Describes ⟨Generator.all.flatMap fun g => lastListed g.name runs⟩ w.disk.root place := by
  intro names
  constructor
  · rintro ⟨hfile, g, hg, hbelow⟩
    obtain ⟨e, he, hplace⟩ :=
      (h.hasFile_iff hg ((List.prefix_append_right_inj place).mpr hbelow)).mp hfile
    exact ⟨e, List.mem_flatMap.mpr ⟨g, hg, he⟩, List.append_cancel_left hplace⟩
  · rintro ⟨e, he, rfl⟩
    obtain ⟨g, hg, he⟩ := List.mem_flatMap.mp he
    obtain ⟨hgenerator, run, hrun, hlisted⟩ := mem_lastListed he
    have hbelow : [g.name] <+: e.path.pieces := by
      rw [(h.entry hrun hlisted).2.2, hgenerator]
      exact ⟨[e.hintName], rfl⟩
    exact ⟨(h.hasFile_iff hg ((List.prefix_append_right_inj place).mpr hbelow)).mpr ⟨e, he, rfl⟩,
      g, hg, hbelow⟩

variable {last : Generation} {earlier : List Generation}

/-- The manifest on the disk is that of the last generation. -/
theorem manifest_of_run (h : History parser digest place (last :: earlier) w) :
    w.disk.root.occupant? (place ++ [Manifest.fileName.text]) =
      some (.file last.manifest.render.toUTF8) := by
  cases h with
  | @run _ _ w' _ _ r _ _ _ hread hout hslash hrun =>
    obtain ⟨rfl, hwrite⟩ := writeOutputs?_of_run hread hrun
    rw [← hout.resolved]
    exact (Disk.open_of_writeOutputs? (fun result hresult =>
      (r.wellNamed_results hread hslash result hresult).1) hwrite).2

/-- If every generator that was left out of the last generation has no files, the last manifest
lists what was listed last of each generator. -/
theorem mem_lastListed_iff (h : History parser digest place (last :: earlier) w)
    (hnone : ∀ g ∈ Generator.all, g.name ∉ last.generators → lastListed g.name earlier = [])
    {e : ManifestEntry} :
    (e ∈ Generator.all.flatMap fun g => lastListed g.name (last :: earlier)) ↔
      e ∈ last.manifest.files := by
  rw [List.mem_flatMap]
  constructor
  · rintro ⟨g, hg, he⟩
    rw [lastListed] at he
    split at he
    · exact List.mem_of_mem_filter he
    · rename_i hout
      rw [hnone g hg hout] at he
      contradiction
  · intro he
    obtain ⟨hran, ⟨g, hg, hname⟩, -⟩ := h.entry List.mem_cons_self he
    refine ⟨g, hg, ?_⟩
    rw [lastListed, if_pos (hname ▸ hran)]
    exact List.mem_filter.mpr ⟨he, decide_eq_true hname.symm⟩

/-- After any number of generations into one output directory, the manifest in it is that of the
last one, and the files below the directories of the generators are those that were listed last
of each generator. So the manifest lists exactly these files if and only if every generator that
was left out of the last generation had listed nothing when it ran last. -/
theorem describes_iff (h : History parser digest place (last :: earlier) w) :
    w.disk.root.occupant? (place ++ [Manifest.fileName.text]) =
        some (.file last.manifest.render.toUTF8) ∧
      Manifest.Describes ⟨Generator.all.flatMap fun g => lastListed g.name (last :: earlier)⟩
        w.disk.root place ∧
      (last.manifest.Describes w.disk.root place ↔
        ∀ g ∈ Generator.all, g.name ∉ last.generators → lastListed g.name earlier = []) := by
  refine ⟨h.manifest_of_run, h.describes_lastListed, fun hdescribes g hg hout => ?_,
    fun hnone names => ?_⟩
  · -- A file of a generator that was left out is not in the last manifest.
    refine List.eq_nil_iff_forall_not_mem.mpr fun e he => hout ?_
    have hlisted : e ∈ lastListed g.name (last :: earlier) := by rwa [lastListed, if_neg hout]
    obtain ⟨hgenerator, run, hrun, hentry⟩ := mem_lastListed hlisted
    obtain ⟨other, hother, hpieces⟩ := (hdescribes _).mp ((h.describes_lastListed e.path.pieces).mpr
      ⟨e, List.mem_flatMap.mpr ⟨g, hg, hlisted⟩, rfl⟩)
    obtain ⟨hran, -, hpiecesOther⟩ := h.entry List.mem_cons_self hother
    rw [hpiecesOther, (h.entry hrun hentry).2.2, hgenerator] at hpieces
    exact (List.cons.inj hpieces).1 ▸ hran
  · refine (h.describes_lastListed names).trans (exists_congr fun e => and_congr_left' ?_)
    exact h.mem_lastListed_iff hnone

open Command

/-- The output directory of the project with one greeting stub. -/
theorem leadsTo_greeting :
    greetingDisk.LeadsTo (greetingReading none).out ["home", "proj", "Generated"] where
  resolved := by decide +kernel
  start := by decide +kernel
  aside g hg := by
    rcases List.mem_pair.mp hg with rfl | rfl <;> exact ⟨by decide +kernel, by decide +kernel⟩

/-- One generation of that project. -/
def greetingGeneration (only : Option GeneratorChoice) : Generation where
  generators := (greetingReading only).generators.map (·.name)
  manifest := ((greetingReading only).summary greetingParser).manifest

/-- The project is generated, and then generated again with the annotated methods only. -/
theorem exists_runs_greeting :
    ∃ w w' : World,
      (generate greetingParser .standard { path := ⟨"proj"⟩ }).run { disk := greetingDisk } =
        .ok ((greetingReading none).summary greetingParser) w ∧
      (generate greetingParser .standard { path := ⟨"proj"⟩, only := some .annotated }).run w =
        .ok ((greetingReading (some .annotated)).summary greetingParser) w' ∧
      History greetingParser .standard ["home", "proj", "Generated"]
        [greetingGeneration (some .annotated), greetingGeneration none] w' := by
  obtain ⟨d', hboth⟩ : ∃ d', ((Disk.writeOutputs? (greetingReading none).out
      ((greetingReading none).results greetingParser) greetingDisk).bind
        (Disk.writeOutputs? (greetingReading (some .annotated)).out
          ((greetingReading (some .annotated)).results greetingParser))) = some d' :=
    Option.isSome_iff_exists.mp (by decide +kernel)
  obtain ⟨d, hwrite, hwrite'⟩ := Option.bind_eq_some_iff.mp hboth
  have hslash : ((greetingReading none).registry.compilation greetingParser).SlashFree := by
    decide +kernel
  have hresults := fun result hresult =>
    ((greetingReading none).wellNamed_results (reading?_greeting none) hslash result hresult).1
  obtain ⟨config, inner, hplain⟩ :=
    readsPlain_of_reading? plainProject_greeting rfl rfl (reading?_greeting none)
  obtain rfl : {} = config := Except.ok.inj hplain.config_eq
  have hread' := hplain.reading?_after rfl rfl (by decide +kernel) (by decide +kernel) hresults hwrite
    (some .annotated)
  obtain ⟨w, hrun, rfl⟩ := exists_run_of_writeOutputs? (w := { disk := greetingDisk })
    (reading?_greeting none) hwrite
  obtain ⟨w', hrun', rfl⟩ := exists_run_of_writeOutputs? hread' hwrite'
  refine ⟨w, w', hrun, hrun', ?_⟩
  have hstart : History greetingParser .standard ["home", "proj", "Generated"] []
      { disk := greetingDisk } := .start (by decide +kernel)
  have hfirst := hstart.run (fun _ _ _ _ => rfl) (reading?_greeting none) leadsTo_greeting hslash hrun
  exact hfirst.run (fun _ _ _ _ => rfl) hread' (leadsTo_greeting.writeOutputs? hresults hwrite) hslash
    hrun'

/-- The two generations of the project with one greeting stub. -/
theorem describes_iff_of_greeting :
    ∃ w, History greetingParser .standard ["home", "proj", "Generated"]
        [greetingGeneration (some .annotated), greetingGeneration none] w ∧
      w.disk.root.occupant? ["home", "proj", "Generated", "manifest.json"] =
        some (.file (greetingGeneration (some .annotated)).manifest.render.toUTF8) ∧
      Manifest.Describes ⟨Generator.all.flatMap fun g => lastListed g.name
          [greetingGeneration (some .annotated), greetingGeneration none]⟩
        w.disk.root ["home", "proj", "Generated"] ∧
      ((greetingGeneration (some .annotated)).manifest.Describes w.disk.root
          ["home", "proj", "Generated"] ↔
        ∀ g ∈ Generator.all, g.name ∉ (greetingGeneration (some .annotated)).generators →
          lastListed g.name [greetingGeneration none] = []) := by
  obtain ⟨-, w, -, -, h⟩ := exists_runs_greeting
  exact ⟨w, h, describes_iff h⟩

/-- The manifest does not tell of the completed greeting after the second generation. Its list
is empty, as only annotated methods were completed, but the file of the first generation is
still there. -/
theorem not_describes_of_only :
    ∃ w w' : World,
      (generate greetingParser .standard { path := ⟨"proj"⟩ }).run { disk := greetingDisk } =
        .ok ((greetingReading none).summary greetingParser) w ∧
      (generate greetingParser .standard { path := ⟨"proj"⟩, only := some .annotated }).run w =
        .ok ((greetingReading (some .annotated)).summary greetingParser) w' ∧
      History greetingParser .standard ["home", "proj", "Generated"]
        [greetingGeneration (some .annotated), greetingGeneration none] w' ∧
      (greetingGeneration (some .annotated)).manifest.files = [] ∧
      w'.disk.root.HasFile ["home", "proj", "Generated", "partial-method", "G.g.cs"] ∧
      ¬ (greetingGeneration (some .annotated)).manifest.Describes w'.disk.root
        ["home", "proj", "Generated"] := by
  obtain ⟨w, w', hrun, hrun', h⟩ := exists_runs_greeting
  have hnone : (greetingGeneration (some .annotated)).manifest.files = [] := by decide +kernel
  have hstub : Generator.stub ∈ Generator.all := List.mem_cons_self
  have hfile : w'.disk.root.HasFile ["home", "proj", "Generated", "partial-method", "G.g.cs"] :=
    (h.hasFile_iff hstub ⟨["G.g.cs"], rfl⟩).mpr (by decide +kernel)
  refine ⟨w, w', hrun, hrun', h, hnone, hfile, fun hdescribes => ?_⟩
  obtain ⟨e, he, -⟩ := (hdescribes ["partial-method", "G.g.cs"]).mp
    ⟨hfile, .stub, hstub, ⟨["G.g.cs"], rfl⟩⟩
  rw [hnone] at he
  contradiction

end History

end StubGen
