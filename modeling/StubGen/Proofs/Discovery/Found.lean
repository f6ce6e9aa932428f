import StubGen.Proofs.Discovery.Exclusion
import StubGen.Proofs.Disk.Distinct
import StubGen.Proofs.Path.Order

/-!
# What the search for sources finds

The search finds a source for every chain of names that it may go along and that leads to a
file, and every source once. As the sources are then sorted, what is found depends on the files
of the disk and not on the order in which a directory lists its entries. Changes inside the
output directory are not seen by the search, and new directories elsewhere make no difference.
-/

namespace StubGen

open StubGen.Path (IsName)

namespace Discovery

/-- A chain of names below a path along which the search goes, up to the name of a source. -/
def Sought (p : Path) : List String → Prop
  | [] => False
  | [name] => isSource (p.join ⟨name⟩) = true
  | name :: next :: rest =>
    entersDirectory none (p.join ⟨name⟩) name = true ∧ Sought (p.join ⟨name⟩) (next :: rest)

variable {p : Path} {f : Path} {entries : Directory}

/-- The search goes along one more name into a directory. -/
theorem sought_cons_iff {name : String} {rest : List String} (h : rest ≠ []) :
    Sought p (name :: rest) ↔
      entersDirectory none (p.join ⟨name⟩) name = true ∧ Sought (p.join ⟨name⟩) rest := by
  obtain ⟨next, rest, rfl⟩ := List.exists_cons_of_ne_nil h
  exact Iff.rfl

/-- A chain of names that is searched has a name. -/
theorem Sought.ne_nil {names : List String} (h : Sought p names) : names ≠ [] := by
  rintro rfl
  exact h

/-- A file among the entries at the end of a chain of names along which the search goes. -/
def Found (p : Path) (entries : Directory) (f : Path) : Prop :=
  ∃ names, (∀ name ∈ names, IsName name) ∧ Sought p names ∧ entries.HasFile names ∧
    f = p.extend names

/-- Nothing is found in an empty directory. -/
theorem not_found_empty (p f : Path) : ¬ Found p .empty f := by
  rintro ⟨names, -, hsought, ⟨content, hfile⟩, -⟩
  obtain ⟨name, rest, rfl⟩ := List.exists_cons_of_ne_nil hsought.ne_nil
  simp [Directory.occupant?_cons, Directory.get?] at hfile

/-- A file is found itself if it is a source. -/
theorem found_file_iff {name : String} {content : ByteArray} (hname : IsName name)
    (hget : entries.get? name = none) :
    Found p (.file name content entries) f ↔
      (isSource (p.join ⟨name⟩) = true ∧ f = p.join ⟨name⟩) ∨ Found p entries f := by
  constructor
  · rintro ⟨names, hnames, hsought, hfile, rfl⟩
    obtain ⟨other, more, rfl⟩ := List.exists_cons_of_ne_nil hsought.ne_nil
    rcases (Directory.hasFile_file_iff hget).mp hfile with ⟨rfl, rfl⟩ | hfile
    · exact .inl ⟨hsought, rfl⟩
    · exact .inr ⟨_, hnames, hsought, hfile, rfl⟩
  · rintro (⟨hsource, rfl⟩ | ⟨names, hnames, hsought, hfile, rfl⟩)
    · exact ⟨[name], by simpa using hname, hsource,
        (Directory.hasFile_file_iff hget).mpr (.inl ⟨rfl, rfl⟩), rfl⟩
    · obtain ⟨other, more, rfl⟩ := List.exists_cons_of_ne_nil hsought.ne_nil
      exact ⟨_, hnames, hsought, (Directory.hasFile_file_iff hget).mpr (.inr hfile), rfl⟩

/-- In a directory is found what is found in its entries if the search goes into it. -/
theorem found_directory_iff {name : String} {rest : Directory} (hname : IsName name)
    (hget : rest.get? name = none) :
    Found p (.directory name entries rest) f ↔
      (entersDirectory none (p.join ⟨name⟩) name = true ∧ Found (p.join ⟨name⟩) entries f) ∨
        Found p rest f := by
  constructor
  · rintro ⟨names, hnames, hsought, hfile, rfl⟩
    obtain ⟨other, more, rfl⟩ := List.exists_cons_of_ne_nil hsought.ne_nil
    rcases (Directory.hasFile_directory_iff hget).mp hfile with ⟨rfl, hbelow⟩ | hbelow
    · have hmore : more ≠ [] := by
        rintro rfl
        exact Directory.not_hasFile_nil entries hbelow
      obtain ⟨henters, hsought⟩ := (sought_cons_iff hmore).mp hsought
      exact .inl ⟨henters, more, (List.forall_mem_cons.mp hnames).2, hsought, hbelow, rfl⟩
    · exact .inr ⟨_, hnames, hsought, hbelow, rfl⟩
  · rintro (⟨henters, names, hnames, hsought, hfile, rfl⟩ | ⟨names, hnames, hsought, hfile, rfl⟩)
    · exact ⟨name :: names, List.forall_mem_cons.mpr ⟨hname, hnames⟩,
        (sought_cons_iff hsought.ne_nil).mpr ⟨henters, hsought⟩,
        (Directory.hasFile_directory_iff hget).mpr (.inl ⟨rfl, hfile⟩), rfl⟩
    · obtain ⟨other, more, rfl⟩ := List.exists_cons_of_ne_nil hsought.ne_nil
      exact ⟨_, hnames, hsought, (Directory.hasFile_directory_iff hget).mpr (.inr hfile), rfl⟩

/-- The search finds the files at the ends of the chains of names along which it goes. -/
theorem mem_sourcesBelow_iff (hnamed : entries.WellNamed) (hdistinct : entries.Distinct) :
    f ∈ sourcesBelow none p entries ↔ Found p entries f := by
  induction entries generalizing p with
  | empty => exact iff_of_false List.not_mem_nil (not_found_empty p f)
  | file name content rest ih =>
    rw [sourcesBelow, List.mem_append, ih hnamed.2 hdistinct.2, found_file_iff hnamed.1 hdistinct.1]
    refine or_congr_left ?_
    split <;> simp_all [isExcluded]
  | directory name entries rest ihEntries ihRest =>
    rw [sourcesBelow, List.mem_append, ihRest hnamed.2.2 hdistinct.2.2,
      found_directory_iff hnamed.1 hdistinct.1, ← ihEntries hnamed.2.1 hdistinct.2.1]
    refine or_congr_left ?_
    split <;> simp_all

/-- Chains of names are told apart by the steps of the paths that go on with them. -/
theorem eq_of_components_extend (hp : p.text ≠ "") {names more : List String}
    (hnames : ∀ name ∈ names, IsName name) (hmore : ∀ name ∈ more, IsName name)
    (h : (p.extend names).components = (p.extend more).components) : names = more := by
  rw [Path.components_extend hp hnames, Path.components_extend hp hmore] at h
  exact List.map_injective_iff.mpr (fun _ _ => PathComponent.name.inj) (List.append_cancel_left h)

/-- Nothing is found over a name that is not there. -/
theorem not_mem_sourcesBelow_of_get? (hp : p.text ≠ "") (hnamed : entries.WellNamed)
    (hdistinct : entries.Distinct) {name : String} (hget : entries.get? name = none)
    {more : List String} (hnames : ∀ each ∈ name :: more, IsName each) :
    p.extend (name :: more) ∉ sourcesBelow none p entries := by
  intro hmem
  obtain ⟨names, hfound, -, hfile, hextend⟩ := (mem_sourcesBelow_iff hnamed hdistinct).mp hmem
  obtain rfl := eq_of_components_extend hp hnames hfound (by rw [hextend])
  exact Directory.not_hasFile_of_get? hget more hfile

/-- No source is found twice. -/
theorem nodup_sourcesBelow (hp : p.text ≠ "") (hnamed : entries.WellNamed)
    (hdistinct : entries.Distinct) : (sourcesBelow none p entries).Nodup := by
  induction entries generalizing p with
  | empty => exact List.nodup_nil
  | file name content rest ih =>
    rw [sourcesBelow, List.nodup_append]
    refine ⟨?_, ih hp hnamed.2 hdistinct.2, ?_⟩
    · split <;> simp
    · intro f hf g hg
      split at hf
      · rintro rfl
        rw [List.mem_singleton.mp hf] at hg
        have hname : ∀ each ∈ [name], IsName each := by simpa using hnamed.1
        exact not_mem_sourcesBelow_of_get? hp hnamed.2 hdistinct.2 hdistinct.1 hname hg
      · exact absurd hf List.not_mem_nil
  | directory name entries rest ihEntries ihRest =>
    have hne := Path.text_join_ne_empty hp hnamed.1.isAbsolute
    rw [sourcesBelow, List.nodup_append]
    refine ⟨?_, ihRest hp hnamed.2.2 hdistinct.2.2, ?_⟩
    · split
      · exact ihEntries hne hnamed.2.1 hdistinct.2.1
      · exact List.nodup_nil
    · intro f hf g hg
      split at hf
      · obtain ⟨names, hnames, -, -, rfl⟩ :=
          (mem_sourcesBelow_iff hnamed.2.1 hdistinct.2.1).mp hf
        rintro rfl
        exact not_mem_sourcesBelow_of_get? hp hnamed.2.2 hdistinct.2.2 hdistinct.1
          (List.forall_mem_cons.mpr ⟨hnamed.1, hnames⟩) hg
      · exact absurd hf List.not_mem_nil

end Discovery

namespace Disk

open Discovery

variable {d d' : Disk} {p e : Path}

/-- Except below a path, what stands on the second disk has grown from what stands on the
first. -/
structure GrowsOutside (e : Path) (d d' : Disk) : Prop where
  working : d'.working = d.working
  grows : ∀ place, (d.resolved e <+: place → place = d.resolved e) →
    Occupant.Grows (d.root.occupant? place) (d'.root.occupant? place)

/-- Files that are not below `e` are read as before. -/
theorem GrowsOutside.bytes?_extend (h : GrowsOutside e d d') (hopen : d.Open p) (hopen' : d'.Open p)
    (names : List String) (hne : names ≠ []) (hnames : ∀ name ∈ names, IsName name)
    (houtside : d.resolved e <+: d.resolved p ++ names → d.resolved p ++ names = d.resolved e) :
    d'.bytes? (p.extend names) = d.bytes? (p.extend names) := by
  refine Option.ext fun content => ?_
  rw [bytes?_extend_iff hne hnames, bytes?_extend_iff hne hnames, resolved_congr h.working,
    (h.grows _ houtside).file_iff]
  simp only [hopen, hopen']

/-- The search comes by a path on the way from `p` along names exactly if it is `p` or is passed
before the end. -/
theorem exists_passed_iff (hp : p.text ≠ "") {names : List String}
    (hnames : ∀ name ∈ names, IsName name) :
    (∃ passed, passed <+: names ∧ (p.extend passed).components = e.components) ↔
      p.same e = true ∨ Passes p (p.extend names) e := by
  have hcomponents := Path.components_extend hp hnames
  rw [same_or_passes_iff (hcomponents ▸ List.prefix_append _ _), hcomponents]
  constructor
  · rintro ⟨passed, hpassed, hsame⟩
    rw [← hsame, Path.components_extend hp fun name hname => hnames name (hpassed.subset hname),
      List.prefix_append_right_inj]
    exact ⟨List.prefix_append _ _, hpassed.map _⟩
  · rintro ⟨⟨more, hmore⟩, hef⟩
    rw [← hmore, List.prefix_append_right_inj, List.prefix_map_iff] at hef
    obtain ⟨passed, hpassed, rfl⟩ := hef
    refine ⟨passed, hpassed, ?_⟩
    rw [Path.components_extend hp fun name hname => hnames name (hpassed.subset hname), hmore]

/-- Searching a directory, with `e` left out, finds the files at the ends of the chains of names
along which the search goes without coming by `e`. -/
theorem sources?_exclude (hnamed : d.WellNamed) (hdistinct : d.Distinct)
    (hp : d.isDirectory p = true) (e : Path) :
    ∃ found : List Path, d.sources? p (some e) = some (found.mergeSort Path.le) ∧ found.Nodup ∧
      ∀ f, f ∈ found ↔ ∃ names, (∀ name ∈ names, IsName name) ∧ Sought p names ∧
        d.root.HasFile (d.resolved p ++ names) ∧ f = p.extend names ∧
        ∀ passed, passed <+: names → (p.extend passed).components ≠ e.components := by
  obtain ⟨entries, hentries, hsources⟩ := sources?_of_isDirectory hp
  have htext := text_ne_empty_of_isDirectory hp
  have hentriesNamed := hnamed.entries? hentries
  have hentriesDistinct := hdistinct.entries? hentries
  have hfile names : entries.HasFile names ↔ d.root.HasFile (d.resolved p ++ names) := by
    simp only [Directory.HasFile, occupant?_of_entries? hentries]
  have hpassed {names : List String} (hnames : ∀ name ∈ names, IsName name) :
      (∀ passed, passed <+: names → (p.extend passed).components ≠ e.components) ↔
        ¬ (p.same e = true ∨ Passes p (p.extend names) e) := by
    rw [← exists_passed_iff htext hnames]
    simp only [not_exists, not_and, ne_eq]
  by_cases hsame : p.same e = true
  · -- The search does not even start.
    refine ⟨[], ?_, List.nodup_nil, fun f => iff_of_false List.not_mem_nil ?_⟩
    · rw [hsources, if_pos (by simpa [isExcluded] using hsame), List.mergeSort_nil]
    rintro ⟨names, hnames, -, -, -, hout⟩
    exact (hpassed hnames).mp hout (.inl hsame)
  refine ⟨sourcesBelow (some e) p entries,
    by rw [hsources, if_neg (by simpa [isExcluded] using hsame)], ?_, fun f => ?_⟩
  · rw [sourcesBelow_some e htext hentriesNamed]
    exact (nodup_sourcesBelow htext hentriesNamed hentriesDistinct).filter _
  · rw [sourcesBelow_some e htext hentriesNamed, List.mem_filter,
      mem_sourcesBelow_iff hentriesNamed hentriesDistinct, decide_eq_true_eq]
    constructor
    · rintro ⟨⟨names, hnames, hsought, hthere, rfl⟩, hout⟩
      exact ⟨names, hnames, hsought, (hfile names).mp hthere, rfl,
        (hpassed hnames).mpr (not_or.mpr ⟨hsame, hout⟩)⟩
    · rintro ⟨names, hnames, hsought, hthere, rfl, hout⟩
      exact ⟨⟨names, hnames, hsought, (hfile names).mpr hthere, rfl⟩,
        (not_or.mp ((hpassed hnames).mp hout)).2⟩

/-- If `e` goes on from the searched directory with names, the chains of names that do not lead
into `e` are searched. -/
theorem sources?_some (hnamed : d.WellNamed) (hdistinct : d.Distinct) (hp : d.isDirectory p = true)
    {inner : List String} (he : e.components = p.components ++ inner.map .name) :
    ∃ found : List Path, d.sources? p (some e) = some (found.mergeSort Path.le) ∧ found.Nodup ∧
      ∀ f, f ∈ found ↔ ∃ names, (∀ name ∈ names, IsName name) ∧ Sought p names ∧
        d.root.HasFile (d.resolved p ++ names) ∧ f = p.extend names ∧ ¬ inner <+: names := by
  obtain ⟨found, hsources, hnodup, hfound⟩ := sources?_exclude hnamed hdistinct hp e
  refine ⟨found, hsources, hnodup, fun f => (hfound f).trans (exists_congr fun names => ?_)⟩
  refine and_congr_right fun hnames => and_congr_right fun _ => and_congr_right fun _ =>
    and_congr_right fun _ => ?_
  have htext := text_ne_empty_of_isDirectory hp
  have hpassed {passed : List String} (hpassed : passed <+: names) :
      (p.extend passed).components = e.components ↔ inner = passed := by
    rw [Path.components_extend htext fun name hname => hnames name (hpassed.subset hname), he,
      List.append_cancel_left_eq, (List.map_injective_iff.mpr
        fun _ _ => PathComponent.name.inj).eq_iff, eq_comm]
  constructor
  · exact fun hout hin => hout inner hin ((hpassed hin).mpr rfl)
  · rintro hout passed hin hsame
    obtain rfl := (hpassed hin).mp hsame
    exact hout hin

/-- Names lead into `e` if they begin with those by which `e` goes on. -/
theorem resolved_prefix_iff {inner names : List String}
    (he : e.components = p.components ++ inner.map .name) :
    d.resolved e <+: d.resolved p ++ names ↔ inner <+: names := by
  rw [resolved_of_components he, List.prefix_append_right_inj]

/-- Two disks that differ inside of `e`, and otherwise in new directories, hold the same sources
outside of `e`, and these have the same contents. -/
theorem GrowsOutside.sources? (h : GrowsOutside e d d') (hnamed : d.WellNamed)
    (hdistinct : d.Distinct) (hp : d.isDirectory p = true) (hnamed' : d'.WellNamed)
    (hdistinct' : d'.Distinct) (hp' : d'.isDirectory p = true) {inner : List String}
    (he : e.components = p.components ++ inner.map .name) :
    ∃ paths, d.sources? p (some e) = some paths ∧ d'.sources? p (some e) = some paths ∧
      ∀ f ∈ paths, d'.bytes? f = d.bytes? f := by
  obtain ⟨found, hsources, hnodup, hfound⟩ := sources?_some hnamed hdistinct hp he
  obtain ⟨again, hsources', hnodup', hagain⟩ := sources?_some hnamed' hdistinct' hp' he
  have htext := text_ne_empty_of_isDirectory hp
  have hsame f : f ∈ found ↔ f ∈ again := by
    rw [hfound, hagain, resolved_congr h.working]
    refine exists_congr fun names => and_congr_right fun _ => and_congr_right fun _ => ?_
    rw [and_comm (b := f = p.extend names ∧ _), and_comm (b := f = p.extend names ∧ _)]
    refine and_congr_right fun hout => exists_congr fun content => ?_
    refine (h.grows _ fun hin => ?_).file_iff.symm
    exact absurd ((resolved_prefix_iff he).mp hin) hout.2
  refine ⟨_, hsources, ?_, fun f hf => ?_⟩
  · rw [hsources']
    have hperm : again.Perm found :=
      (List.perm_ext_iff_of_nodup hnodup' hnodup).mpr fun f => (hsame f).symm
    refine congrArg some (Path.mergeSort_eq_of_perm hperm fun f hf g hg hsteps => ?_)
    obtain ⟨names, hnames, -, -, rfl, -⟩ := (hagain f).mp hf
    obtain ⟨more, hmore, -, -, rfl, -⟩ := (hagain g).mp hg
    rw [eq_of_components_extend htext hnames hmore hsteps]
  · obtain ⟨names, hnames, hsought, -, rfl, hout⟩ := (hfound f).mp (List.mem_mergeSort.mp hf)
    exact h.bytes?_extend (isDirectory_iff.mp hp).2 (isDirectory_iff.mp hp').2 _ hsought.ne_nil
      hnames fun hin => absurd ((resolved_prefix_iff he).mp hin) hout

end Disk

end StubGen
