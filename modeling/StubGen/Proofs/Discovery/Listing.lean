import StubGen.Proofs.Discovery.Found

/-!
# The list of sources

If every directory can be read, the search for sources lists exactly the C# files that it is to
list: those below the searched directory, except below a build directory and on the way through
the path that is left out. The searched directory itself may have the name of a build directory.
The list is strictly increasing, and it is the same in whatever order the directories list their
entries.
-/

namespace StubGen

open StubGen.Path (IsName)

namespace Directory

/-- Every directory below has a path that the disk looks at, so its entries can be read. -/
def Readable (p : Path) : Directory → Prop
  | empty => True
  | file _ _ rest => rest.Readable p
  | directory name entries rest =>
    Disk.accepts (p.join ⟨name⟩) = true ∧ entries.Readable (p.join ⟨name⟩) ∧ rest.Readable p

/-- Whether every directory below can be read. -/
def decideReadable (p : Path) : (d : Directory) → Decidable (d.Readable p)
  | empty => .isTrue trivial
  | file _ _ rest => decideReadable p rest
  | directory name entries rest =>
    have := decideReadable (p.join ⟨name⟩) entries
    have := decideReadable p rest
    inferInstanceAs (Decidable (Disk.accepts (p.join ⟨name⟩) = true ∧
      entries.Readable (p.join ⟨name⟩) ∧ rest.Readable p))

instance (p : Path) : DecidablePred (Readable p) := decideReadable p

variable {d : Directory} {p : Path}

/-- A directory under a name can be read. -/
theorem Readable.get? (h : d.Readable p) {name : String} {entries : Directory}
    (hentry : d.get? name = some (.directory entries)) :
    Disk.accepts (p.join ⟨name⟩) = true ∧ entries.Readable (p.join ⟨name⟩) := by
  induction d with
  | empty => contradiction
  | file other content rest ih =>
    rw [Directory.get?] at hentry
    split at hentry
    · simp at hentry
    · exact ih h hentry
  | directory other sub rest _ ih =>
    rw [Directory.get?] at hentry
    split at hentry
    · rename_i hname
      obtain rfl := DirectoryEntry.directory.inj (Option.some.inj hentry)
      exact hname ▸ ⟨h.1, h.2.1⟩
    · exact ih h.2.2 hentry

/-- A directory at the end of a chain of names has a path that the disk looks at. -/
theorem Readable.accepts (h : d.Readable p) {names : List String} (hne : names ≠ [])
    (hdirectory : d.occupant? names = some .directory) :
    Disk.accepts (p.extend names) = true := by
  induction names generalizing d p with
  | nil => contradiction
  | cons name rest ih =>
    rw [occupant?_cons] at hdirectory
    obtain ⟨entry, hentry, hrest⟩ := Option.bind_eq_some_iff.mp hdirectory
    cases entry with
    | file content =>
      rw [DirectoryEntry.occupant?] at hrest
      split at hrest <;> simp at hrest
    | directory entries =>
      obtain ⟨haccepts, hentries⟩ := h.get? hentry
      rcases eq_or_ne rest [] with rfl | hmore
      · exact haccepts
      · exact ih hentries hmore hrest

end Directory

namespace Discovery

variable {p : Path}

/-- Without an excluded path, the search goes into a directory that is none of the build
directories and can be looked at. -/
theorem entersDirectory_none_iff {name : String} :
    entersDirectory none p name = true ↔ name ∉ skippedDirectories ∧ Disk.accepts p = true := by
  simp [entersDirectory, isExcluded]

/-- The search goes along a chain of names up to a source if it goes into every directory on the
way. -/
theorem sought_iff {names : List String} (hne : names ≠ []) :
    Sought p names ↔ isSource (p.extend names) = true ∧
      (∀ name ∈ names.dropLast, name ∉ skippedDirectories) ∧
      ∀ passed, passed <+: names → passed ≠ [] → passed ≠ names →
        Disk.accepts (p.extend passed) = true := by
  induction names generalizing p with
  | nil => contradiction
  | cons name rest ih =>
    rcases eq_or_ne rest [] with rfl | hmore
    · refine (and_iff_left ⟨List.forall_mem_nil _, fun passed hpassed hsome hproper => ?_⟩).symm
      have hlength := hpassed.length_le
      have := List.length_pos_iff.mpr hsome
      exact absurd (hpassed.eq_of_length (by simp at hlength ⊢; omega)) hproper
    rw [sought_cons_iff hmore, entersDirectory_none_iff, ih hmore,
      List.dropLast_cons_of_ne_nil hmore, List.forall_mem_cons]
    constructor
    · rintro ⟨⟨hname, haccepts⟩, hsource, hskipped, hpassed⟩
      refine ⟨hsource, ⟨hname, hskipped⟩, fun passed hin hsome hproper => ?_⟩
      obtain ⟨first, more, rfl⟩ := List.exists_cons_of_ne_nil hsome
      obtain ⟨rfl, hwithin⟩ := List.cons_prefix_cons.mp hin
      rcases eq_or_ne more [] with rfl | hsome
      · exact haccepts
      · exact hpassed more hwithin hsome fun hsame => hproper (hsame ▸ rfl)
    · rintro ⟨hsource, ⟨hname, hskipped⟩, hpassed⟩
      refine ⟨⟨hname, ?_⟩, hsource, hskipped, fun passed hin hsome hproper => ?_⟩
      · exact hpassed [name] ⟨rest, rfl⟩ (by simp) (by simpa using hmore.symm)
      · exact hpassed (name :: passed) (List.cons_prefix_cons.mpr ⟨rfl, hin⟩) (by simp)
          (by simpa using hproper)

end Discovery

namespace Disk

open Discovery

variable {d d' : Disk} {p e : Path}

/-- The search finds the same sources in the same order on disks on which the same stands
everywhere. -/
theorem Same.sources?_eq (h : d'.Same d) (hnamed : d.WellNamed) (hdistinct : d.Distinct)
    (hp : d.isDirectory p = true) (hnamed' : d'.WellNamed) (hdistinct' : d'.Distinct) :
    d'.sources? p (some e) = d.sources? p (some e) := by
  have htext := text_ne_empty_of_isDirectory hp
  obtain ⟨found, hsources, hnodup, hfound⟩ := sources?_exclude hnamed hdistinct hp e
  obtain ⟨again, hsources', hnodup', hagain⟩ :=
    sources?_exclude hnamed' hdistinct' ((h.isDirectory_iff p).mpr hp) e
  have hsame f : f ∈ again ↔ f ∈ found := by
    rw [hfound, hagain, resolved_congr h.working]
    simp only [Directory.HasFile, h.places]
  rw [hsources, hsources']
  refine congrArg some (Path.mergeSort_eq_of_perm
    ((List.perm_ext_iff_of_nodup hnodup' hnodup).mpr hsame) fun f hf g hg hsteps => ?_)
  obtain ⟨names, hnames, -, -, rfl, -⟩ := (hagain f).mp hf
  obtain ⟨more, hmore, -, -, rfl, -⟩ := (hagain g).mp hg
  rw [eq_of_components_extend htext hnames hmore hsteps]

/-- If every directory below it can be read, a directory has its sources listed in strictly
increasing order. Listed are exactly the files below it with the ending of sources that are not
below a build directory in it and are not reached through the excluded path. The list does not
depend on the order in which directories list their entries. -/
theorem sources?_lists_exactly (hnamed : d.WellNamed) (hdistinct : d.Distinct)
    (hp : d.isDirectory p = true) (hreadable : ∀ entries ∈ d.entries? p, entries.Readable p)
    (e : Path) :
    ∃ found, d.sources? p (some e) = some found ∧
      found.Pairwise (fun f g => f.le g = true ∧ g.le f = false) ∧
      (∀ f, f ∈ found ↔ ∃ names, (∀ name ∈ names, IsName name) ∧ f = p.extend names ∧
        d.root.HasFile (d.resolved p ++ names) ∧ f.extension? = some "cs" ∧
        (∀ name ∈ names.dropLast, name ∉ ["bin", "obj", ".git"]) ∧
        ∀ passed, passed <+: names → (p.extend passed).components ≠ e.components) ∧
      ∀ d' : Disk, d'.WellNamed → d'.Distinct → d'.Same d →
        d'.sources? p (some e) = some found := by
  have htext := text_ne_empty_of_isDirectory hp
  obtain ⟨entries, hentries, -⟩ := sources?_of_isDirectory hp
  obtain ⟨found, hsources, hnodup, hfound⟩ := sources?_exclude hnamed hdistinct hp e
  refine ⟨_, hsources, Path.pairwise_mergeSort_strict hnodup fun f hf g hg hsteps => ?_,
    fun f => ?_, fun d' hnamed' hdistinct' hsame =>
      (hsame.sources?_eq hnamed hdistinct hp hnamed' hdistinct').trans hsources⟩
  · obtain ⟨names, hnames, -, -, rfl, -⟩ := (hfound f).mp hf
    obtain ⟨more, hmore, -, -, rfl, -⟩ := (hfound g).mp hg
    rw [eq_of_components_extend htext hnames hmore hsteps]
  rw [List.mem_mergeSort, hfound]
  refine exists_congr fun names => and_congr_right fun hnames => ?_
  have hne (hfile : d.root.HasFile (d.resolved p ++ names)) : names ≠ [] := by
    rintro rfl
    obtain ⟨content, hthere⟩ := hfile
    rw [List.append_nil, (isDirectory_iff.mp hp).2 _ (resolved_mem_way d p)] at hthere
    simp at hthere
  -- What leads on to a file is a directory that can be read.
  have haccepts (hfile : d.root.HasFile (d.resolved p ++ names)) (passed : List String)
      (hpassed : passed <+: names) (hsome : passed ≠ []) (hproper : passed ≠ names) :
      accepts (p.extend passed) = true := by
    obtain ⟨more, rfl⟩ := hpassed
    obtain ⟨content, hthere⟩ := hfile
    refine (hreadable entries hentries).accepts hsome ?_
    have hmore : more ≠ [] := by simpa using hproper
    refine Directory.occupant?_eq_directory_of_append hmore ?_
    rw [occupant?_of_entries? hentries, hthere]
    simp
  have hsource : isSource (p.extend names) = true ↔
      (p.extend names).extension? = some "cs" := beq_iff_eq
  constructor
  · rintro ⟨hsought, hfile, rfl, hout⟩
    obtain ⟨hends, hskipped, -⟩ := (sought_iff (hne hfile)).mp hsought
    exact ⟨rfl, hfile, hsource.mp hends, hskipped, hout⟩
  · rintro ⟨rfl, hfile, hends, hskipped, hout⟩
    exact ⟨(sought_iff (hne hfile)).mpr ⟨hsource.mpr hends, hskipped, haccepts hfile⟩, hfile, rfl,
      hout⟩

/-- What a project directory holds: sources, an output directory and a build directory. -/
def nestedProject : Directory :=
  .directory "src" (.file "Robot.cs" .empty .empty)
    (.directory "bin" (.file "Stale.cs" .empty .empty)
      (.directory "Generated" (.directory "attribute" (.file "Robot.g.cs" .empty .empty) .empty)
        (.file "README.md" .empty (.file "Greeter.cs" .empty .empty))))

/-- The sources of that project are listed although its directory has the name of a build
directory, and in whatever order the directories list their entries. -/
theorem sources?_lists_exactly_nestedProject :
    let d := Disk.ofWorking ["home"] (.directory "obj" nestedProject .empty)
    let found : List Path := [⟨"obj/Greeter.cs"⟩, ⟨"obj/src/Robot.cs"⟩]
    (d.WellNamed ∧ d.Distinct ∧ ∀ entries ∈ d.entries? ⟨"obj"⟩, entries.Readable ⟨"obj"⟩) ∧
      d.sources? ⟨"obj"⟩ (some ⟨"obj/./Generated/"⟩) = some found ∧
      ∀ d' : Disk, d'.WellNamed → d'.Distinct → d'.Same d →
        d'.sources? ⟨"obj"⟩ (some ⟨"obj/./Generated/"⟩) = some found := by
  intro d found
  have hnamed : d.WellNamed := by decide +kernel
  have hdistinct : d.Distinct := by decide +kernel
  have hp : d.isDirectory ⟨"obj"⟩ = true := by decide +kernel
  have hproject : d.entries? ⟨"obj"⟩ = some nestedProject := by decide +kernel
  have hreadable : ∀ entries ∈ d.entries? ⟨"obj"⟩, entries.Readable ⟨"obj"⟩ := by
    rw [hproject]
    decide +kernel
  obtain ⟨listed, hlisted, -, -, hsame⟩ :=
    sources?_lists_exactly hnamed hdistinct hp hreadable ⟨"obj/./Generated/"⟩
  have hfound : listed = found := by
    obtain ⟨entries, hentries, hsources⟩ := sources?_of_isDirectory hp
    obtain rfl := Option.some.inj (hproject.symm.trans hentries)
    have hbelow : sourcesBelow (some ⟨"obj/./Generated/"⟩) ⟨"obj"⟩ nestedProject =
        [⟨"obj/src/Robot.cs"⟩, ⟨"obj/Greeter.cs"⟩] := by decide +kernel
    have hsorted : List.mergeSort [⟨"obj/src/Robot.cs"⟩, ⟨"obj/Greeter.cs"⟩] Path.le = found :=
      (Path.mergeSort_eq_of_perm (List.Perm.swap _ _ _) (by decide +kernel)).trans
        (List.mergeSort_of_pairwise (by decide +kernel))
    rw [hsources, if_neg (by decide +kernel), hbelow, hsorted] at hlisted
    exact (Option.some.inj hlisted).symm
  exact ⟨⟨hnamed, hdistinct, hreadable⟩, hfound ▸ hlisted, fun d' hnamed' hdistinct' h =>
    hfound ▸ hsame d' hnamed' hdistinct' h⟩

end Disk

end StubGen
