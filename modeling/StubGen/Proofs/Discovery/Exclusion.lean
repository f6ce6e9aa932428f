import StubGen.Discovery
import StubGen.Proofs.Disk.Names
import StubGen.Proofs.Disk.Places

/-!
# What the search for sources leaves out

The search for sources knows the output directory by the steps of its path. It leaves out what
is below that directory if the steps go on from those of the project with names, as they do
for the configured output directory. If the output directory is written in any other way, for
example without the dot at the start of the project's path, the search passes it and finds the
generated files in it.
-/

namespace StubGen

open StubGen.Path (IsName)

namespace Discovery

/-- The steps of `e` lead to `f` and go beyond those of `p`. -/
def Passes (p f e : Path) : Prop :=
  e.components <+: f.components ∧ p.components.length < e.components.length

instance (p f e : Path) : Decidable (Passes p f e) :=
  inferInstanceAs (Decidable (e.components <+: f.components ∧
    p.components.length < e.components.length))

variable {p e f : Path}

/-- Every source is found under the path of the search with names after it. -/
theorem exists_names_of_mem_sourcesBelow {exclude : Option Path} {entries : Directory}
    (h : entries.WellNamed) (hf : f ∈ sourcesBelow exclude p entries) :
    ∃ names, names ≠ [] ∧ (∀ name ∈ names, IsName name) ∧ f = p.extend names := by
  induction entries generalizing p with
  | empty => simp [sourcesBelow] at hf
  | file name content rest ih =>
    rcases List.mem_append.mp hf with hfile | hrest
    · split at hfile
      · obtain rfl := List.mem_singleton.mp hfile
        exact ⟨[name], by simp, by simpa using h.1, rfl⟩
      · exact absurd hfile List.not_mem_nil
    · exact ih h.2 hrest
  | directory name entries rest ihEntries ihRest =>
    rcases List.mem_append.mp hf with hentries | hrest
    · split at hentries
      · obtain ⟨names, -, hnames, rfl⟩ := ihEntries h.2.1 hentries
        exact ⟨name :: names, by simp, List.forall_mem_cons.mpr ⟨h.1, hnames⟩, rfl⟩
      · exact absurd hentries List.not_mem_nil
    · exact ihRest h.2.2 hrest

/-- The steps of a search lead to every source that it finds. -/
theorem prefix_components_of_mem {exclude : Option Path} {entries : Directory}
    (hp : p.text ≠ "") (h : entries.WellNamed) (hf : f ∈ sourcesBelow exclude p entries) :
    p.components <+: f.components := by
  obtain ⟨names, -, hnames, rfl⟩ := exists_names_of_mem_sourcesBelow h hf
  rw [Path.components_extend hp hnames]
  exact List.prefix_append _ _

/-- On the way from `p` over one of its entries, `e` is that entry or comes after it. -/
theorem passes_iff_same_or_passes {q : Path} {step : PathComponent}
    (hq : q.components = p.components ++ [step]) (hf : q.components <+: f.components) :
    Passes p f e ↔ q.same e = true ∨ Passes q f e := by
  have hlength : q.components.length = p.components.length + 1 := by simp [hq]
  have hsame : q.same e = true ↔ q.components = e.components := beq_iff_eq
  rw [hsame]
  constructor
  · rintro ⟨hbegins, hlonger⟩
    by_cases hone : e.components.length = q.components.length
    · have hle := List.prefix_of_prefix_length_le hf hbegins hone.ge
      exact .inl (hle.eq_of_length hone.symm)
    · exact .inr ⟨hbegins, by omega⟩
  · rintro (heq | ⟨hbegins, hlonger⟩)
    · exact ⟨heq ▸ hf, by rw [← heq]; omega⟩
    · exact ⟨hbegins, by omega⟩

/-- No path is passed on the way from itself. -/
theorem not_passes_self (q e : Path) : ¬ Passes q q e :=
  fun ⟨hbegins, hlonger⟩ => absurd hbegins.length_le (by omega)

/-- The search goes into the directories that it goes into without exclusion, apart from the
excluded one. -/
theorem entersDirectory_some (e q : Path) (name : String) :
    entersDirectory (some e) q name = (entersDirectory none q name && !q.same e) := by
  simp [entersDirectory, isExcluded, Bool.and_right_comm]

/-- Excluding a path takes away the sources on the way to which it is passed, and no other. -/
theorem sourcesBelow_some (e : Path) (hp : p.text ≠ "") {entries : Directory}
    (h : entries.WellNamed) :
    sourcesBelow (some e) p entries =
      (sourcesBelow none p entries).filter fun f => ¬ Passes p f e := by
  induction entries generalizing p with
  | empty => rfl
  | file name content rest ih =>
    have hq := Path.components_join_name hp h.1
    have hpasses := (passes_iff_same_or_passes (e := e) hq (List.prefix_refl _)).trans
      (or_iff_left (not_passes_self _ e))
    rw [sourcesBelow, sourcesBelow, List.filter_append, ih hp h.2]
    refine congrArg (· ++ _) ?_
    -- A file is passed on the way to itself only.
    by_cases hsource : isSource (p.join ⟨name⟩) = true
    · by_cases hsame : (p.join ⟨name⟩).same e = true
      · simp [isExcluded, hsource, hsame, hpasses]
      · simp [isExcluded, hsource, hsame, hpasses]
    · simp [hsource]
  | directory name entries rest ihEntries ihRest =>
    have hq := Path.components_join_name hp h.1
    have hne := Path.text_join_ne_empty hp h.1.isAbsolute
    have hpasses {f : Path} (hf : f ∈ sourcesBelow none (p.join ⟨name⟩) entries) :=
      passes_iff_same_or_passes (e := e) hq (prefix_components_of_mem hne h.2.1 hf)
    rw [sourcesBelow, sourcesBelow, List.filter_append, ihRest hp h.2.2]
    refine congrArg (· ++ _) ?_
    -- Of what is below the directory, all goes if it is excluded itself. Otherwise the same
    -- sources go whether the way starts in the directory or one step before it.
    rw [entersDirectory_some]
    by_cases henters : entersDirectory none (p.join ⟨name⟩) name = true
    · rw [henters, Bool.true_and, if_pos rfl]
      by_cases hsame : (p.join ⟨name⟩).same e = true
      · rw [if_neg (by simp [hsame]), eq_comm, List.filter_eq_nil_iff]
        exact fun f hf => by simpa using (hpasses hf).mpr (.inl hsame)
      · rw [if_pos (by simp [hsame]), ihEntries hne h.2.1]
        exact List.filter_congr fun f hf => by simp [hpasses hf, hsame]
    · simp [henters]

end Discovery

namespace Disk

open Discovery

variable {d : Disk} {p e f : Path}

/-- The sources of a directory are searched for among its entries. -/
theorem sources?_of_isDirectory (hp : d.isDirectory p = true) :
    ∃ entries, d.entries? p = some entries ∧ ∀ exclude, d.sources? p exclude =
      some (if isExcluded exclude p then []
        else (sourcesBelow exclude p entries).mergeSort Path.le) := by
  obtain ⟨entries, hentries⟩ := Option.isSome_iff_exists.mp hp
  have hfile : d.isFile p = false := by
    unfold entries? at hentries
    unfold isFile bytes?
    split at hentries
    · rename_i heq
      rw [heq]
      rfl
    · contradiction
  refine ⟨entries, hentries, fun exclude => ?_⟩
  rw [sources?, hfile, hentries]
  rfl

/-- Sources that the search comes upon in order are listed as they are. -/
theorem sources?_of_sorted {entries : Directory} {exclude : Option Path} {found : List Path}
    (hentries : d.entries? p = some entries) (hkept : isExcluded exclude p = false)
    (hbelow : sourcesBelow exclude p entries = found)
    (hsorted : found.Pairwise fun e f => e.le f = true) : d.sources? p exclude = some found := by
  have hp : d.isDirectory p = true := by
    rw [isDirectory, hentries]
    rfl
  obtain ⟨listed, hlisted, hsources⟩ := sources?_of_isDirectory hp
  obtain rfl := Option.some.inj (hentries.symm.trans hlisted)
  rw [hsources, hkept, hbelow, List.mergeSort_of_pairwise hsorted]
  rfl

/-- The path of a directory has a text. -/
theorem text_ne_empty_of_isDirectory (hp : d.isDirectory p = true) : p.text ≠ "" := by
  intro hempty
  have hplace : d.place? p = none := if_neg (by simp [accepts, hempty])
  simp [isDirectory, entries?, entry?, hplace] at hp

/-- Let `f` go on from `p` with names. Then `e` goes on from `p` with names and has `f` inside
exactly if its steps lie between theirs. -/
theorem spelledFrom_and_inside_iff {names : List String}
    (hf : f.components = p.components ++ names.map .name) :
    p.SpelledFrom e ∧ d.Inside e f ↔
      p.components <+: e.components ∧ e.components <+: f.components := by
  constructor
  · rintro ⟨⟨onwards, he⟩, hinside⟩
    rw [Inside, resolved_of_components he, resolved_of_components hf,
      List.prefix_append_right_inj] at hinside
    refine ⟨he ▸ List.prefix_append _ _, ?_⟩
    rw [he, hf, List.prefix_append_right_inj]
    exact hinside.map _
  · rintro ⟨⟨more, hmore⟩, hef⟩
    rw [hf, ← hmore, List.prefix_append_right_inj, List.prefix_map_iff] at hef
    obtain ⟨onwards, honwards, rfl⟩ := hef
    refine ⟨⟨onwards, hmore.symm⟩, ?_⟩
    rw [Inside, resolved_of_components hmore.symm, resolved_of_components hf,
      List.prefix_append_right_inj]
    exact honwards

/-- The steps of `e` lie between those of `p` and `f` exactly if `e` is `p` or is passed on the
way from there to `f`. -/
theorem same_or_passes_iff (hpf : p.components <+: f.components) :
    p.same e = true ∨ Passes p f e ↔
      p.components <+: e.components ∧ e.components <+: f.components := by
  have hsame : p.same e = true ↔ p.components = e.components := beq_iff_eq
  rw [hsame]
  constructor
  · rintro (heq | ⟨hef, hlonger⟩)
    · exact ⟨heq ▸ List.prefix_refl _, heq ▸ hpf⟩
    · exact ⟨List.prefix_of_prefix_length_le hpf hef hlonger.le, hef⟩
  · rintro ⟨hpe, hef⟩
    rcases Nat.lt_or_eq_of_le hpe.length_le with hlonger | hlength
    · exact .inr ⟨hef, hlonger⟩
    · exact .inl (hpe.eq_of_length hlength)

/-- With an excluded path, the search finds what it finds without, except for what is inside
that path if the path goes on from the searched one with names. -/
theorem mem_sources_iff (hd : d.WellNamed) (hp : d.isDirectory p = true) (e : Path) :
    ∃ all found, d.sources? p none = some all ∧ d.sources? p (some e) = some found ∧
      ∀ f, f ∈ found ↔ f ∈ all ∧ ¬ (p.SpelledFrom e ∧ d.Inside e f) := by
  obtain ⟨entries, hentries, hsources⟩ := sources?_of_isDirectory hp
  have htext := text_ne_empty_of_isDirectory hp
  have hnamed := hd.entries? hentries
  refine ⟨_, _, hsources none, hsources (some e), fun f => ?_⟩
  have hall : f ∈ (if isExcluded none p then [] else
      (sourcesBelow none p entries).mergeSort Path.le) ↔ f ∈ sourcesBelow none p entries := by
    simp [isExcluded]
  have hfound : f ∈ (if isExcluded (some e) p then [] else
      (sourcesBelow (some e) p entries).mergeSort Path.le) ↔
        f ∈ sourcesBelow none p entries ∧ ¬ (p.same e = true ∨ Passes p f e) := by
    rw [sourcesBelow_some e htext hnamed]
    by_cases hsame : p.same e = true <;> simp [isExcluded, hsame]
  rw [hall, hfound]
  refine and_congr_right fun hf => not_congr ?_
  obtain ⟨names, -, hnames, rfl⟩ := exists_names_of_mem_sourcesBelow hnamed hf
  have hcomponents := Path.components_extend htext hnames
  rw [same_or_passes_iff (hcomponents ▸ List.prefix_append _ _),
    spelledFrom_and_inside_iff hcomponents]

/-- No source is found inside the excluded path exactly if that path goes on from the searched
one with names, or there is no source inside it anyway. A relative path without double dots,
joined to the searched one, goes on from it with names. -/
theorem sources_outside_iff (hd : d.WellNamed) (hp : d.isDirectory p = true) (e : Path) :
    ∃ all found, d.sources? p none = some all ∧ d.sources? p (some e) = some found ∧
      (∀ f, f ∈ found ↔ f ∈ all ∧ ¬ (p.SpelledFrom e ∧ d.Inside e f)) ∧
      ((∀ f ∈ found, ¬ d.Inside e f) ↔ p.SpelledFrom e ∨ ∀ f ∈ all, ¬ d.Inside e f) ∧
      ∀ q : Path, e = p.join q → q.isAbsolute = false → ".." ∉ q.pieces →
        ∀ f ∈ found, ¬ d.Inside e f := by
  obtain ⟨all, found, hall, hfound, hmem⟩ := mem_sources_iff hd hp e
  have hspelled (hgoes : p.SpelledFrom e) : ∀ f ∈ found, ¬ d.Inside e f :=
    fun f hf hinside => ((hmem f).mp hf).2 ⟨hgoes, hinside⟩
  refine ⟨all, found, hall, hfound, hmem, ⟨fun houtside => ?_, ?_⟩, ?_⟩
  · by_cases hgoes : p.SpelledFrom e
    · exact .inl hgoes
    · exact .inr fun f hf => houtside f ((hmem f).mpr ⟨hf, fun h => hgoes h.1⟩)
  · rintro (hgoes | houtside)
    · exact hspelled hgoes
    · exact fun f hf => houtside f ((hmem f).mp hf).1
  · rintro q rfl hq hup
    exact hspelled (Path.spelledFrom_join (text_ne_empty_of_isDirectory hp) hq hup)

/-- A project with a generated file in its output directory. -/
def generatedProject : Directory :=
  .directory "Generated" (.directory "attribute" (.file "Robot.g.cs" .empty .empty) .empty)
    (.file "Greeter.cs" .empty .empty)

/-- The generated file is left out under the configured name of the output directory. -/
theorem sources_outside_of_configured :
    let d := Disk.ofWorking ["home"] generatedProject
    let e := Path.join ⟨"."⟩ ⟨"Generated"⟩
    d.WellNamed ∧ d.isDirectory ⟨"."⟩ = true ∧
      ∃ found, d.sources? ⟨"."⟩ (some e) = some found ∧ ∀ f ∈ found, ¬ d.Inside e f := by
  intro d e
  have hd : d.WellNamed := by decide +kernel
  have hp : d.isDirectory ⟨"."⟩ = true := by decide +kernel
  obtain ⟨_, found, -, hfound, -, -, hjoined⟩ := sources_outside_iff hd hp e
  exact ⟨hd, hp, found, hfound, hjoined ⟨"Generated"⟩ rfl (by decide +kernel) (by decide +kernel)⟩

/-- The generated file is found if the output directory is written without the dot that is the
path of the project. -/
theorem sources_inside_of_respelled :
    let d := Disk.ofWorking ["home"] generatedProject
    d.sources? ⟨"."⟩ (some ⟨"Generated"⟩) =
        some [⟨"./Generated/attribute/Robot.g.cs"⟩, ⟨"./Greeter.cs"⟩] ∧
      d.Inside ⟨"Generated"⟩ ⟨"./Generated/attribute/Robot.g.cs"⟩ := by
  intro d
  have hproject : d.entries? ⟨"."⟩ = some generatedProject := by decide +kernel
  refine ⟨sources?_of_sorted hproject (by decide +kernel) ?_ ?_, by decide +kernel⟩
  · decide +kernel
  · decide +kernel

end Disk

end StubGen
