import StubGen.Proofs.Command.Written
import StubGen.Proofs.Manifest.RoundTrip

/-!
# What a run makes of the output directory

After a run the directory of every generator holds exactly its fragments, whatever was there
before, provided that the directory can be cleared: the path of the output directory must not
lead through the directory, and the directory must not be hidden behind a path that is too long.
Both conditions are necessary. Nothing else changes but the manifest and the directories that
the path of the output directory passes.
-/

namespace StubGen

open StubGen.Path (IsName)

namespace Disk

/-- At a place there is a directory with exactly the files that fragments become, or nothing at
all if there are no fragments. -/
def HoldsExactly (d : Disk) (place : List String) (fragments : List Fragment) : Prop :=
  ∀ inner there, d.root.occupant? (place ++ inner) = some there ↔
    (inner = [] ∧ fragments ≠ [] ∧ there = .directory) ∨
      ∃ f ∈ fragments, inner = [f.hintName] ∧ there = f.occupant

/-- The directory of a generator can be cleared while the path of the output directory is
followed. What cannot be looked at has to be missing. -/
structure Clearable (d : Disk) (out : Path) (r : GeneratorResult) : Prop where
  beside : ∀ place ∈ d.way out, d.resolved out ++ [r.generator] <+: place →
    r.sources ≠ [] ∧ place = d.resolved out ++ [r.generator]
  seen : accepts (out.join ⟨r.generator⟩) = true ∨
    d.root.occupant? (d.resolved out ++ [r.generator]) = none

variable {d d' e : Disk} {out : Path} {r : GeneratorResult} {results : List GeneratorResult}
  {place : List String} {fragments : List Fragment}

/-- What a directory holds exactly does not change while nothing below it does. -/
theorem HoldsExactly.congr (h : d.HoldsExactly place fragments)
    (hsame : ∀ inner, place <+: inner → e.root.occupant? inner = d.root.occupant? inner) :
    e.HoldsExactly place fragments := by
  intro inner there
  rw [hsame _ (List.prefix_append _ _)]
  exact h inner there

/-- Where exactly fragments are, the only directory is the one that holds them. -/
theorem HoldsExactly.directory (h : d.HoldsExactly place fragments) {inner : List String}
    (hbelow : place <+: inner) (hdirectory : d.root.occupant? inner = some .directory) :
    fragments ≠ [] ∧ inner = place := by
  obtain ⟨more, rfl⟩ := hbelow
  rcases (h more .directory).mp hdirectory with ⟨rfl, hne, -⟩ | ⟨f, -, -, hfile⟩
  · exact ⟨hne, List.append_nil _⟩
  · contradiction

/-- The files below a directory that holds exactly fragments. -/
theorem HoldsExactly.file_iff (h : d.HoldsExactly place fragments) {inner : List String}
    (hbelow : place <+: inner) (content : ByteArray) :
    d.root.occupant? inner = some (.file content) ↔
      ∃ f ∈ fragments, inner = place ++ [f.hintName] ∧ f.occupant = .file content := by
  obtain ⟨more, rfl⟩ := hbelow
  rw [h more, or_iff_right (by simp)]
  simp only [List.append_cancel_left_eq, eq_comm]

/-- Nothing is where there are no fragments. -/
theorem holdsExactly_nil_iff : d.HoldsExactly place [] ↔ d.root.occupant? place = none := by
  constructor
  · intro h
    refine Option.eq_none_iff_forall_ne_some.mpr fun there hthere => ?_
    have := (h [] there).mp (by rwa [List.append_nil])
    simp at this
  · intro hnone inner there
    refine iff_of_false (fun hthere => ?_) (by simp)
    have hbeyond : d.root.occupant? (place ++ inner) ≠ none := by simp [hthere]
    exact Directory.occupant?_ne_none_of_append hbeyond hnone

/-- What can be cleared can be cleared later, if it is missing later on in case that it cannot be
looked at. -/
theorem Clearable.congr (h : d.Clearable out r) (hworking : e.working = d.working)
    (hseen : d.root.occupant? (d.resolved out ++ [r.generator]) = none →
      accepts (out.join ⟨r.generator⟩) = true ∨
        e.root.occupant? (d.resolved out ++ [r.generator]) = none) : e.Clearable out r := by
  refine ⟨?_, ?_⟩
  · rw [way_congr hworking, resolved_congr hworking]
    exact h.beside
  · rw [resolved_congr hworking]
    exact h.seen.elim .inl hseen

section One

variable (hr : r.WellNamed) (hopen : d.Open out) (h : writeResult? out r d = some d')
include hr hopen h

/-- Once the output directory is there, writing the fragments of a generator changes nothing
outside the directory of the generator. -/
theorem occupant?_of_writeResult?_outside (hout : ¬ d.resolved out ++ [r.generator] <+: place) :
    d'.root.occupant? place = d.root.occupant? place :=
  ((spares_of_writeResult? hr h).2 place fun _ => hout).eq_of_open hopen

variable (hclear : d.Clearable out r)
include hclear

/-- A directory that can be cleared holds exactly the fragments of its generator once they are
written. -/
theorem holdsExactly_of_writeResult? :
    d'.HoldsExactly (d.resolved out ++ [r.generator]) r.sources := by
  by_cases haccepts : accepts (out.join ⟨r.generator⟩) = true
  swap
  · -- The directory is neither cleared nor made, and it is not there.
    have hempty : r.sources = [] := by
      by_contra hne
      exact haccepts (accepts_of_writeResult? hr h hne)
    have hsame := ((spares_of_writeResult? hr h).2 (d.resolved out ++ [r.generator]) fun hseen =>
      absurd hseen haccepts).eq_of_open hopen
    rw [hempty, holdsExactly_nil_iff, hsame]
    exact hclear.seen.resolve_left haccepts
  have hreaches : d.Reaches out r.generator := ⟨haccepts, hopen⟩
  intro inner there
  cases there with
  | file content =>
    rw [file_of_writeResult? hr h hreaches (List.prefix_append _ _), or_iff_right (by simp)]
    simp only [List.append_cancel_left_eq, eq_comm]
  | directory =>
    constructor
    · intro hdirectory
      have hbelow : d.resolved out ++ [r.generator] <+: d.resolved out ++ [r.generator] ++ inner :=
        List.prefix_append _ _
      obtain ⟨hne, hway⟩ := directory_of_writeResult? hr h hreaches hbelow hdirectory
      have hself := hway.elim (fun hplace => (hclear.beside _ hplace hbelow).2) id
      exact .inl ⟨by simpa using hself, hne, rfl⟩
    · rintro (⟨rfl, hne, -⟩ | ⟨f, -, -, hfile⟩)
      · rw [List.append_nil]
        exact (occupant?_of_writeResult? hr h hne).1
      · contradiction

/-- Writing the fragments of a generator leaves the way of the output directory open. -/
theorem open_of_writeResult? : d'.Open out := by
  have hworking := (spares_of_writeResult? hr h).1
  intro place hplace
  rw [way_congr hworking] at hplace
  by_cases hbelow : d.resolved out ++ [r.generator] <+: place
  · obtain ⟨hne, rfl⟩ := hclear.beside place hplace hbelow
    exact (occupant?_of_writeResult? hr h hne).1
  · rw [occupant?_of_writeResult?_outside hr hopen h hbelow]
    exact hopen place hplace

end One

/-- Directories that can be cleared hold exactly the fragments of their generators once all are
written. -/
theorem holdsExactly_of_writeResults? (hopen : d.Open out) (hresults : ∀ r ∈ results, r.WellNamed)
    (hclear : ∀ r ∈ results, d.Clearable out r) (hdistinct : (results.map (·.generator)).Nodup)
    (h : writeResults? out results d = some d') :
    ∀ r ∈ results, d'.HoldsExactly (d.resolved out ++ [r.generator]) r.sources := by
  induction results generalizing d with
  | nil => exact List.forall_mem_nil _
  | cons s rest ih =>
    obtain ⟨hs, hrest⟩ := List.forall_mem_cons.mp hresults
    obtain ⟨hclearFirst, hclearRest⟩ := List.forall_mem_cons.mp hclear
    obtain ⟨hother, hdistinctRest⟩ := List.nodup_cons.mp hdistinct
    obtain ⟨first, hfirst, hlater⟩ := Option.bind_eq_some_iff.mp h
    have hworking := (spares_of_writeResult? hs hfirst).1
    have hresolved := resolved_congr hworking out
    have hopen' := open_of_writeResult? hs hopen hfirst hclearFirst
    refine List.forall_mem_cons.mpr ⟨?_, fun r hr => ?_⟩
    · refine (holdsExactly_of_writeResult? hs hopen hfirst hclearFirst).congr fun inner hbelow => ?_
      refine ((spares_of_writeResults? hrest hlater).2 inner fun r hr _ hin => ?_).eq_of_open hopen'
      rw [hresolved] at hin
      exact hother (List.mem_map.mpr ⟨r, hr, (name_eq_of_below hbelow hin).symm⟩)
    · rw [← hresolved]
      refine ih hopen' hrest (fun r hr => (hclearRest r hr).congr hworking fun hnone => .inr ?_)
        hdistinctRest hlater r hr
      refine (occupant?_of_writeResult?_outside hs hopen hfirst fun hin => ?_).trans hnone
      exact hother (List.mem_map.mpr ⟨r, hr, (name_eq_of_below hin (List.prefix_refl _)).symm⟩)

/-- Fragments that were written have directories that can be looked at. -/
theorem accepts_of_writeResults? (hresults : ∀ r ∈ results, r.WellNamed)
    (h : writeResults? out results d = some d') :
    ∀ r ∈ results, r.sources ≠ [] → accepts (out.join ⟨r.generator⟩) = true := by
  induction results generalizing d with
  | nil => exact List.forall_mem_nil _
  | cons s rest ih =>
    obtain ⟨hs, hrest⟩ := List.forall_mem_cons.mp hresults
    obtain ⟨first, hfirst, hlater⟩ := Option.bind_eq_some_iff.mp h
    exact List.forall_mem_cons.mpr ⟨accepts_of_writeResult? hs hfirst, ih hrest hlater⟩

/-- After a run from a directory that exists, the directories of the generators hold exactly their
fragments if and only if all of them could be cleared. -/
theorem holdsExactly_of_writeOutputs?_iff
    (hstart : d.root.occupant? (d.startOf out) = some .directory)
    (hresults : ∀ r ∈ results, r.WellNamed ∧ r.generator ≠ Manifest.fileName.text)
    (hdistinct : (results.map (·.generator)).Nodup) (h : writeOutputs? out results d = some d') :
    (∀ r ∈ results, d'.HoldsExactly (d.resolved out ++ [r.generator]) r.sources) ↔
      ∀ r ∈ results, d.Clearable out r := by
  have hnames := fun r hr => (hresults r hr).1
  have hbeside {r : GeneratorResult} (hr : r ∈ results) {place : List String}
      (hbelow : d.resolved out ++ [r.generator] <+: place) :
      place ≠ d.resolved out ++ [Manifest.fileName.text] := by
    rintro rfl
    exact (hresults r hr).2 (name_eq_of_below hbelow (List.prefix_refl _))
  obtain ⟨made, written, hmake, hwrite, hmanifest⟩ := writeOutputs?_eq_some h
  obtain ⟨hworking, hmade⟩ := occupant?_of_make? hmake
  have hresolved := resolved_congr hworking out
  constructor
  · intro hexactly r hr
    refine ⟨fun place hway hbelow => ?_, or_iff_not_imp_left.mpr fun haccepts => ?_⟩
    · -- The way of the output directory is open afterwards.
      have hopen := (open_of_writeOutputs? hnames h).1
      have hworking' := (spares_of_writeOutputs? hnames h).1
      refine (hexactly r hr).directory hbelow (hopen place ?_)
      rwa [way_congr hworking']
    · -- Without fragments nothing is there afterwards, and what cannot be looked at stays.
      have hempty : r.sources = [] := by
        by_contra hne
        exact haccepts (accepts_of_writeResults? hnames hwrite r hr hne)
      have hafter := holdsExactly_nil_iff.mp (hempty ▸ hexactly r hr)
      by_contra hthere
      have hspares := (spares_of_writeOutputs? hnames h).2 (d.resolved out ++ [r.generator])
        (hbeside hr (List.prefix_refl _)) fun s hs hseen hin => ?_
      · exact hthere (hspares.grows.eq_of_ne_none hthere ▸ hafter)
      · rw [name_eq_of_below (List.prefix_refl _) hin] at haccepts
        exact haccepts hseen
  · intro hclear r hr
    have hclear' : ∀ r ∈ results, made.Clearable out r := fun r hr =>
      (hclear r hr).congr hworking fun hnone => by
        rcases hmade (d.resolved out ++ [r.generator]) with hsame | ⟨hway, -⟩
        · exact .inr (hsame.trans hnone)
        · -- What is made in the place of a directory is there for fragments.
          have hne := ((hclear r hr).beside _ hway (List.prefix_refl _)).1
          exact .inl (accepts_of_writeResults? hnames hwrite r hr hne)
    have hexactly := holdsExactly_of_writeResults? (open_of_make? hmake hstart) hnames hclear'
      hdistinct hwrite r hr
    obtain ⟨-, hplaces⟩ := occupant?_of_writeBytes? isName_manifest hmanifest
    rw [hresolved] at hexactly
    refine hexactly.congr fun inner hbelow => (hplaces inner).trans (if_neg ?_)
    rw [resolved_congr (spares_of_writeResults? hnames hwrite).1, hresolved]
    exact hbeside hr hbelow

/-- Without double dots, pieces lead further down. -/
theorem prefix_foldl_onward {pieces : List String} (hup : ".." ∉ pieces) (start : List String) :
    start <+: pieces.foldl PathComponent.onward start := by
  induction pieces generalizing start with
  | nil => exact List.prefix_refl _
  | cons piece rest ih =>
    obtain ⟨hpiece, hrest⟩ := not_or.mp (mt List.mem_cons.mpr hup)
    refine List.IsPrefix.trans ?_ (ih hrest _)
    by_cases hstay : piece = "" ∨ piece = "."
    · rw [PathComponent.onward_stay hstay]
    · rw [PathComponent.onward_name hstay (Ne.symm hpiece)]
      exact List.prefix_append _ _

/-- Without double dots, pieces pass nothing but what is above the place that they lead to. -/
theorem prefix_of_mem_wayAlong {start : List String} {pieces : List String} (hup : ".." ∉ pieces)
    (hplace : place ∈ wayAlong start pieces) :
    place <+: pieces.foldl PathComponent.onward start := by
  induction pieces generalizing start with
  | nil =>
    obtain rfl := List.mem_singleton.mp hplace
    exact List.prefix_refl _
  | cons piece rest ih =>
    rcases List.mem_cons.mp hplace with rfl | hlater
    · exact prefix_foldl_onward hup place
    · exact ih (fun hrest => hup (List.mem_cons_of_mem _ hrest)) hlater

/-- A path without double dots leads through no directory of a generator, so all of these that
can be looked at can be cleared. -/
theorem clearable_of_no_up (hup : ".." ∉ out.pieces)
    (haccepts : accepts (out.join ⟨r.generator⟩) = true) : d.Clearable out r := by
  refine ⟨fun place hway hbelow => ?_, .inl haccepts⟩
  have hlength := (hbelow.trans (prefix_of_mem_wayAlong hup hway)).length_le
  rw [← resolved_eq, List.length_append, List.length_singleton] at hlength
  omega

end Disk

namespace Command

/-- What a successful run makes of the disk. It hands over a manifest with the files of all
fragments, in the order of the generators and their fragments and with their sizes, and that is
what the manifest file holds: the manifest is read back from it, as far as sizes go that can be
written. What is neither that file nor below the directory of a generator stays, except for
directories that come on the way of the output directory. The directories of the generators hold
exactly their fragments if and only if all of them could be cleared; if the path of the output
directory has no double dot, those can that can be looked at. -/
theorem writeOutputs_realises_iff_clearable {out : Path} {result : RunResult} {w w' : World}
    {manifest : Manifest} (hstart : w.disk.root.occupant? (w.disk.startOf out) = some .directory)
    (hresults : ∀ r ∈ result.results, r.WellNamed ∧ r.generator ≠ Manifest.fileName.text)
    (hdistinct : (result.results.map (·.generator)).Nodup)
    (h : (writeOutputs out result).run w = .ok manifest w') :
    manifest.files = (result.results.flatMap fun r => r.sources.map fun f =>
      { generator := r.generator, hintName := f.hintName
        path := Path.join ⟨r.generator⟩ ⟨f.hintName⟩, bytes := f.sourceText.utf8ByteSize }) ∧
    w'.disk.root.occupant? (w.disk.resolved out ++ [Manifest.fileName.text]) =
      some (.file manifest.render.toUTF8) ∧
    ((∀ e ∈ manifest.files, e.bytes ≤ Manifest.largestSize) →
      Manifest.ofFile w'.disk (out.join Manifest.fileName) = .ok manifest) ∧
    (∀ place, place ≠ w.disk.resolved out ++ [Manifest.fileName.text] →
      (∀ r ∈ result.results, ¬ w.disk.resolved out ++ [r.generator] <+: place) →
        w.disk.Spares out w'.disk place) ∧
    ((∀ r ∈ result.results,
        w'.disk.HoldsExactly (w.disk.resolved out ++ [r.generator]) r.sources) ↔
      ∀ r ∈ result.results, w.disk.Clearable out r) ∧
    (".." ∉ out.pieces → ∀ r ∈ result.results,
      Disk.accepts (out.join ⟨r.generator⟩) = true → w.disk.Clearable out r) := by
  have hnames := fun r hr => (hresults r hr).1
  obtain ⟨d, hwrite, hpair⟩ :=
    Option.map_eq_some_iff.mp ((acts_writeOutputs out result w manifest _).mp ⟨w', h, rfl⟩)
  obtain ⟨rfl, rfl⟩ := Prod.mk.inj hpair
  refine ⟨rfl, (Disk.open_of_writeOutputs? hnames hwrite).2,
    Manifest.ofFile_of_bytes? (Disk.bytes?_manifest_of_writeOutputs? hnames hwrite),
    fun place hother hout => ?_,
    Disk.holdsExactly_of_writeOutputs?_iff hstart hresults hdistinct hwrite,
    fun hup r _ haccepts => Disk.clearable_of_no_up hup haccepts⟩
  exact (Disk.spares_of_writeOutputs? hnames hwrite).2 place hother fun r hr _ => hout r hr

/-- A disk with a file of an earlier run. -/
def staleDisk : Disk :=
  .ofWorking ["home"] (.directory "Generated"
    (.directory "attribute" (.file "Old.txt" .empty .empty) .empty) .empty)

/-- A run of both generators that yields the given fragments. -/
def runOf (stubs annotated : List Fragment) : RunResult where
  results := [{ generator := "partial-method", sources := stubs, error := none, reused := false },
    { generator := "attribute", sources := annotated, error := none, reused := false }]
  syntaxErrors := []

/-- Such a run that yields only a completed greeting. -/
def greetingRun : RunResult := runOf [⟨"Greeter.g.cs", "// Greeter"⟩] []

/-- Such a run that yields only a completed method. -/
def methodRun : RunResult := runOf [] [⟨"Robot.g.cs", "// Robot"⟩]

/-- What can be written is written. -/
theorem exists_run_writeOutputs {out : Path} {result : RunResult} (w : World)
    (h : (Disk.writeOutputs? out result.results w.disk).isSome = true) :
    ∃ w', (writeOutputs out result).run w = .ok (.ofResults result.results) w' ∧
      Disk.writeOutputs? out result.results w.disk = some w'.disk := by
  obtain ⟨d, hwrite⟩ := Option.isSome_iff_exists.mp h
  obtain ⟨w', hrun, rfl⟩ := (acts_writeOutputs out result w _ d).mpr
    (Option.map_eq_some_iff.mpr ⟨d, hwrite, rfl⟩)
  exact ⟨w', hrun, hwrite⟩

/-- A file of an earlier run is cleared away, and the directory that held it. -/
theorem writeOutputs_realises_of_stale :
    ∃ w', (writeOutputs ⟨"Generated"⟩ greetingRun).run { disk := staleDisk } =
        .ok (.ofResults greetingRun.results) w' ∧
      (∀ r ∈ greetingRun.results,
        w'.disk.HoldsExactly (["home", "Generated"] ++ [r.generator]) r.sources) ∧
      w'.disk.root.occupant? ["home", "Generated", "attribute"] = none := by
  have hwritten : (Disk.writeOutputs? ⟨"Generated"⟩ greetingRun.results staleDisk).isSome =
      true := by decide +kernel
  obtain ⟨w', hrun, -⟩ := exists_run_writeOutputs { disk := staleDisk } hwritten
  have hresults : ∀ r ∈ greetingRun.results,
      r.WellNamed ∧ r.generator ≠ Manifest.fileName.text := by
    refine List.forall_mem_cons.mpr ⟨⟨⟨by decide, by decide, by decide⟩, by decide⟩,
      List.forall_mem_singleton.mpr ⟨⟨by decide, by decide, by decide⟩, by decide⟩⟩
  have hplace : staleDisk.resolved ⟨"Generated"⟩ = ["home", "Generated"] := by decide +kernel
  have haccepts : ∀ r ∈ greetingRun.results,
      Disk.accepts (Path.join ⟨"Generated"⟩ ⟨r.generator⟩) = true := by decide +kernel
  obtain ⟨-, -, -, -, hexactly, hclear⟩ := writeOutputs_realises_iff_clearable
    (w := { disk := staleDisk }) (by decide +kernel) hresults (by decide) hrun
  have hall := hexactly.mpr fun r hr => hclear (by decide) r hr (haccepts r hr)
  rw [hplace] at hall
  have hannotated := (List.forall_mem_cons.mp hall).2 _ (List.mem_singleton_self _)
  exact ⟨w', hrun, hall, Disk.holdsExactly_nil_iff.mp hannotated⟩

/-- If the path of the output directory leads through the directory of the first generator, that
directory is cleared while the path still needs it, and what is behind it is taken to be missing.
So the file of the earlier run is left beside the new one, and there is an empty directory for
the generator that has yielded nothing. -/
theorem writeOutputs_leaves_stale :
    ∃ w', (writeOutputs ⟨"Generated/partial-method/.."⟩ methodRun).run { disk := staleDisk } =
        .ok (.ofResults methodRun.results) w' ∧
      (∀ r ∈ methodRun.results, r.WellNamed ∧ r.generator ≠ Manifest.fileName.text) ∧
      (methodRun.results.map (·.generator)).Nodup ∧
      w'.disk.root.HasFile ["home", "Generated", "attribute", "Old.txt"] ∧
      w'.disk.root.occupant? ["home", "Generated", "partial-method"] = some .directory ∧
      ∀ r ∈ methodRun.results,
        ¬ w'.disk.HoldsExactly (["home", "Generated"] ++ [r.generator]) r.sources := by
  have hwritten : (Disk.writeOutputs? ⟨"Generated/partial-method/.."⟩ methodRun.results
      staleDisk).isSome = true := by decide +kernel
  obtain ⟨w', hrun, hwrite⟩ := exists_run_writeOutputs { disk := staleDisk } hwritten
  have hafter : (Disk.writeOutputs? ⟨"Generated/partial-method/.."⟩ methodRun.results
      staleDisk).map (fun d => (d.root.occupant? ["home", "Generated", "attribute", "Old.txt"],
        d.root.occupant? ["home", "Generated", "partial-method"])) =
      some (some (.file .empty), some .directory) := by decide +kernel
  rw [hwrite, Option.map_some, Option.some.injEq, Prod.mk.injEq] at hafter
  obtain ⟨hold, hstub⟩ := hafter
  refine ⟨w', hrun, ?_, by decide, ⟨_, hold⟩, hstub, ?_⟩
  · refine List.forall_mem_cons.mpr ⟨⟨⟨by decide, by decide, by decide⟩, by decide⟩,
      List.forall_mem_singleton.mpr ⟨⟨by decide, by decide, by decide⟩, by decide⟩⟩
  · refine List.forall_mem_cons.mpr ⟨fun h => ?_, List.forall_mem_singleton.mpr fun h => ?_⟩
    · exact Option.some_ne_none _ (hstub.symm.trans (Disk.holdsExactly_nil_iff.mp h))
    · have hfiles := (h.file_iff ⟨["Old.txt"], rfl⟩ _).mp hold
      revert hfiles
      decide

end Command

end StubGen
