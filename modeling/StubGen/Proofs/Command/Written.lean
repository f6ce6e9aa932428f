import Mathlib.Data.List.Nodup
import StubGen.Proofs.Command.Writing
import StubGen.Proofs.Generator.HintNames

/-!
# What a run leaves on the disk

Writing the fragments of a generator changes the disk in the directory of that generator and
nowhere else, apart from directories that come where nothing was. If the directory can be
reached, exactly the fragments are found in it afterwards.
-/

namespace StubGen

open StubGen.Path (IsName)

/-- The file that a fragment becomes. -/
def Fragment.occupant (f : Fragment) : Occupant := .file f.sourceText.toUTF8

namespace Disk

/-- A place keeps what it holds, except that a directory is made there if it is on the way of a
path and nothing was there. -/
def Spares (p : Path) (d d' : Disk) (place : List String) : Prop :=
  d'.root.occupant? place = d.root.occupant? place ∨
    place ∈ d.way p ∧ d.root.occupant? place = none ∧
      d'.root.occupant? place = some .directory

variable {d d' : Disk} {directory out : Path}

namespace Spares

variable {e : Disk} {place : List String}

/-- What a place keeps is there, or a directory comes where nothing was. -/
theorem grows (h : Spares out d e place) :
    Occupant.Grows (d.root.occupant? place) (e.root.occupant? place) := h.imp_right And.right

/-- A place is spared in two steps. -/
theorem trans (h : Spares out d e place) (hworking : e.working = d.working)
    (hafter : Spares out e d' place) : Spares out d d' place := by
  rcases hafter with hsame | ⟨hway, hnone, hmade⟩
  · rw [Spares, hsame]
    exact h
  · rcases h with hsame | ⟨-, -, hmade'⟩
    · exact .inr ⟨way_congr hworking out ▸ hway, hsame ▸ hnone, hmade⟩
    · rw [hmade'] at hnone
      contradiction

/-- Once the way is open, nothing is made on it. -/
theorem eq_of_open (h : Spares out d e place) (hopen : d.Open out) :
    e.root.occupant? place = d.root.occupant? place := by
  refine h.resolve_right fun ⟨hway, hnone, _⟩ => ?_
  rw [hopen place hway] at hnone
  contradiction

end Spares

/-- Every fragment is written under its name, and nothing else changes. -/
theorem occupant?_of_writeFragments? {fragments : List Fragment}
    (hnames : ∀ f ∈ fragments, IsName f.hintName)
    (h : writeFragments? directory fragments d = some d') :
    d'.working = d.working ∧ ∀ place,
      (∃ f ∈ fragments, place = d.resolved directory ++ [f.hintName] ∧
        d'.root.occupant? place = some f.occupant) ∨
      (∀ f ∈ fragments, place ≠ d.resolved directory ++ [f.hintName]) ∧
        d'.root.occupant? place = d.root.occupant? place := by
  induction fragments generalizing d with
  | nil =>
    obtain rfl := Option.some.inj h
    exact ⟨rfl, fun place => .inr ⟨by simp, rfl⟩⟩
  | cons f rest ih =>
    obtain ⟨hname, hrest⟩ := List.forall_mem_cons.mp hnames
    obtain ⟨d₁, hwrite, hlater⟩ := Option.bind_eq_some_iff.mp h
    obtain ⟨hworking, hplaces⟩ := occupant?_of_writeBytes? hname hwrite
    obtain ⟨hworking', hplaces'⟩ := ih hrest hlater
    have hresolved := resolved_congr hworking directory
    refine ⟨hworking'.trans hworking, fun place => ?_⟩
    rcases hplaces' place with ⟨g, hg, hplace, hthere⟩ | ⟨hother, hkept⟩
    · exact .inl ⟨g, List.mem_cons_of_mem f hg, hresolved ▸ hplace, hthere⟩
    · rw [hkept, hplaces]
      by_cases hplace : place = d.resolved directory ++ [f.hintName]
      · exact .inl ⟨f, List.mem_cons_self, hplace, if_pos hplace⟩
      · refine .inr ⟨List.forall_mem_cons.mpr ⟨hplace, fun g hg => ?_⟩, if_neg hplace⟩
        exact hresolved ▸ hother g hg

/-- Fragments can only be written into a directory whose way is open. -/
theorem open_of_writeFragments? {fragments : List Fragment} (hne : fragments ≠ [])
    (hnames : ∀ f ∈ fragments, IsName f.hintName)
    (h : writeFragments? directory fragments d = some d') : d.Open directory := by
  obtain ⟨f, rest, rfl⟩ := List.exists_cons_of_ne_nil hne
  obtain ⟨d₁, hwrite, -⟩ := Option.bind_eq_some_iff.mp h
  exact ((writeBytes?_join_name_iff (hnames f List.mem_cons_self)).mp hwrite).1.1.2

/-- With the fragments written, every one of them is there. -/
theorem occupant?_fragment {fragments : List Fragment}
    (hnames : ∀ f ∈ fragments, IsName f.hintName) (hdistinct : (fragments.map (·.hintName)).Nodup)
    (h : writeFragments? directory fragments d = some d') {f : Fragment} (hf : f ∈ fragments) :
    d'.root.occupant? (d.resolved directory ++ [f.hintName]) = some f.occupant := by
  rcases (occupant?_of_writeFragments? hnames h).2 (d.resolved directory ++ [f.hintName]) with
    ⟨g, hg, hplace, hthere⟩ | ⟨hother, -⟩
  · obtain rfl : f = g := List.inj_on_of_nodup_map hdistinct hf hg (by simpa using hplace)
    exact hthere
  · exact absurd rfl (hother f hf)

/-- The fragments of a generator are written in up to three steps. -/
theorem writeResult?_eq_some {r : GeneratorResult} (h : writeResult? out r d = some d') :
    ∃ cleared, d.clear? (out.join ⟨r.generator⟩) = some cleared ∧
      (r.sources = [] ∧ cleared = d' ∨
        r.sources ≠ [] ∧ ∃ made, cleared.make? (out.join ⟨r.generator⟩) = some made ∧
          writeFragments? (out.join ⟨r.generator⟩) r.sources made = some d') := by
  obtain ⟨cleared, hclear, hrest⟩ := Option.bind_eq_some_iff.mp h
  refine ⟨cleared, hclear, ?_⟩
  split at hrest
  · rename_i hempty
    exact .inl ⟨List.isEmpty_iff.mp hempty, Option.some.inj hrest⟩
  · rename_i hempty
    exact .inr ⟨mt List.isEmpty_iff.mpr hempty, Option.bind_eq_some_iff.mp hrest⟩

/-- Clearing a name changes nothing elsewhere. -/
theorem occupant?_of_clear?_outside {name : String} (hname : IsName name)
    (h : d.clear? (out.join ⟨name⟩) = some d') :
    d'.working = d.working ∧ ∀ place, ¬ d.resolved out ++ [name] <+: place →
      d'.root.occupant? place = d.root.occupant? place := by
  by_cases hreaches : d.Reaches out name
  · obtain ⟨hworking, -, hplaces⟩ := occupant?_of_clear? hname hreaches h
    exact ⟨hworking, fun place hout => (hplaces place).trans (if_neg hout)⟩
  · obtain rfl := Option.some.inj ((clear?_of_not_reaches hname hreaches).symm.trans h)
    exact ⟨rfl, fun _ _ => rfl⟩

variable {r : GeneratorResult} (hr : r.WellNamed) (h : writeResult? out r d = some d')
include hr h

/-- The fragments of a generator are written into its directory if there are any. -/
theorem accepts_of_writeResult? (hne : r.sources ≠ []) :
    accepts (out.join ⟨r.generator⟩) = true := by
  obtain ⟨cleared, -, hrest⟩ := writeResult?_eq_some h
  obtain ⟨-, made, hmake, -⟩ := hrest.resolve_left fun hempty => hne hempty.1
  exact (make?_eq_some_iff.mp hmake).1.resolve_left (Path.text_join_name_ne_empty out hr.generator)

/-- Writing the fragments of a generator spares what is not below its directory, and everything
if the directory cannot be looked at. -/
theorem spares_of_writeResult? :
    d'.working = d.working ∧ ∀ place,
      (accepts (out.join ⟨r.generator⟩) = true → ¬ d.resolved out ++ [r.generator] <+: place) →
        Spares out d d' place := by
  obtain ⟨cleared, hclear, hrest⟩ := writeResult?_eq_some h
  obtain ⟨hworking, hkept⟩ := occupant?_of_clear?_outside hr.generator hclear
  rcases hrest with ⟨-, rfl⟩ | ⟨hne, made, hmake, hwrite⟩
  · refine ⟨hworking, fun place hout => .inl ?_⟩
    by_cases haccepts : accepts (out.join ⟨r.generator⟩) = true
    · exact hkept place (hout haccepts)
    · rw [clear?_of_not_reaches hr.generator fun hreaches => haccepts hreaches.1] at hclear
      rw [Option.some.inj hclear]
  · obtain ⟨hworking', hmade⟩ := occupant?_of_make? hmake
    obtain ⟨hworking'', hplaces⟩ := occupant?_of_writeFragments? hr.hintNames hwrite
    have hresolved : made.resolved (out.join ⟨r.generator⟩) = d.resolved out ++ [r.generator] := by
      rw [resolved_congr (hworking'.trans hworking), resolved_join_name hr.generator]
    refine ⟨hworking''.trans (hworking'.trans hworking), fun place hout => ?_⟩
    replace hout := hout (accepts_of_writeResult? hr h hne)
    have hsame : d'.root.occupant? place = made.root.occupant? place := by
      rcases hplaces place with ⟨f, -, hplace, -⟩ | ⟨-, hsame⟩
      · rw [hplace, hresolved] at hout
        exact absurd (List.prefix_append _ _) hout
      · exact hsame
    rw [Spares, hsame, ← hkept place hout, ← way_congr hworking]
    refine (hmade place).imp_right fun ⟨hway, hmade⟩ => ⟨?_, hmade⟩
    -- The way of the directory passes one more place than that of the output directory.
    refine ((mem_way_join_name hr.generator).mp hway).resolve_right fun hplace => hout ?_
    rw [hplace, resolved_congr hworking]

/-- Writing the fragments of a generator leaves what is not below its directory, apart from
directories that come where nothing was. -/
theorem grows_of_writeResult? :
    d'.working = d.working ∧ ∀ place, ¬ d.resolved out ++ [r.generator] <+: place →
      Occupant.Grows (d.root.occupant? place) (d'.root.occupant? place) := by
  obtain ⟨hworking, hspares⟩ := spares_of_writeResult? hr h
  exact ⟨hworking, fun place hout => (hspares place fun _ => hout).grows⟩

/-- If the directory of a generator can be reached, the files in it are afterwards exactly the
fragments of the generator. -/
theorem file_of_writeResult? (hreaches : d.Reaches out r.generator) {place : List String}
    (hbelow : d.resolved out ++ [r.generator] <+: place) (content : ByteArray) :
    d'.root.occupant? place = some (.file content) ↔
      ∃ f ∈ r.sources, place = d.resolved out ++ [r.generator] ++ [f.hintName] ∧
        f.occupant = .file content := by
  obtain ⟨cleared, hclear, hrest⟩ := writeResult?_eq_some h
  obtain ⟨hworking, -, hplaces⟩ := occupant?_of_clear? hr.generator hreaches hclear
  have hnone : cleared.root.occupant? place = none := (hplaces place).trans (if_pos hbelow)
  rcases hrest with ⟨hempty, rfl⟩ | ⟨-, made, hmake, hwrite⟩
  · simp [hnone, hempty]
  · obtain ⟨hworking', -⟩ := occupant?_of_make? hmake
    have hresolved : made.resolved (out.join ⟨r.generator⟩) = d.resolved out ++ [r.generator] := by
      rw [resolved_congr (hworking'.trans hworking), resolved_join_name hr.generator]
    obtain ⟨-, hwritten⟩ := occupant?_of_writeFragments? hr.hintNames hwrite
    have hfragment {f : Fragment} (hf : f ∈ r.sources) :=
      occupant?_fragment hr.hintNames hr.distinct hwrite hf
    rw [hresolved] at hwritten
    constructor
    · intro hfile
      rcases hwritten place with ⟨f, hf, hplace, hthere⟩ | ⟨-, hsame⟩
      · exact ⟨f, hf, hplace, Option.some.inj (hthere.symm.trans hfile)⟩
      · -- What was made there is a directory.
        rw [hsame, (grows_of_make? hmake place).file_iff, hnone] at hfile
        contradiction
    · rintro ⟨f, hf, rfl, hcontent⟩
      rw [← hresolved, hfragment hf, hcontent]

/-- If the directory of a generator can be reached, the only directories below it are afterwards
itself and what is on the way of the output directory, and there are none without fragments. -/
theorem directory_of_writeResult? (hreaches : d.Reaches out r.generator) {place : List String}
    (hbelow : d.resolved out ++ [r.generator] <+: place)
    (hdirectory : d'.root.occupant? place = some .directory) :
    r.sources ≠ [] ∧ (place ∈ d.way out ∨ place = d.resolved out ++ [r.generator]) := by
  obtain ⟨cleared, hclear, hrest⟩ := writeResult?_eq_some h
  obtain ⟨hworking, -, hplaces⟩ := occupant?_of_clear? hr.generator hreaches hclear
  have hnone : cleared.root.occupant? place = none := (hplaces place).trans (if_pos hbelow)
  rcases hrest with ⟨-, rfl⟩ | ⟨hne, made, hmake, hwrite⟩
  · rw [hnone] at hdirectory
    contradiction
  refine ⟨hne, ?_⟩
  rcases (occupant?_of_writeFragments? hr.hintNames hwrite).2 place with ⟨f, -, -, hfile⟩ | ⟨-, hsame⟩
  · simp [hfile, Fragment.occupant] at hdirectory
  · rw [hsame] at hdirectory
    rcases (occupant?_of_make? hmake).2 place with hkept | ⟨hway, -⟩
    · rw [hkept, hnone] at hdirectory
      contradiction
    · rwa [mem_way_join_name hr.generator, way_congr hworking, resolved_congr hworking] at hway

/-- A generator that yields something has its fragments in its directory. -/
theorem occupant?_of_writeResult? (hne : r.sources ≠ []) :
    d'.root.occupant? (d.resolved out ++ [r.generator]) = some .directory ∧
      ∀ f ∈ r.sources, d'.root.occupant? (d.resolved out ++ [r.generator] ++ [f.hintName]) =
        some f.occupant := by
  obtain ⟨cleared, hclear, hrest⟩ := writeResult?_eq_some h
  obtain ⟨-, made, hmake, hwrite⟩ := hrest.resolve_left fun hempty => hne hempty.1
  obtain ⟨hworking, -⟩ := occupant?_of_clear?_outside hr.generator hclear
  obtain ⟨hworking', -⟩ := occupant?_of_make? hmake
  have hresolved : made.resolved (out.join ⟨r.generator⟩) = d.resolved out ++ [r.generator] := by
    rw [resolved_congr (hworking'.trans hworking), resolved_join_name hr.generator]
  refine ⟨?_, fun f hf => ?_⟩
  · have hdirectory := open_of_writeFragments? hne hr.hintNames hwrite _ (resolved_mem_way _ _)
    rw [hresolved] at hdirectory
    rcases (occupant?_of_writeFragments? hr.hintNames hwrite).2
      (d.resolved out ++ [r.generator]) with ⟨f, -, hplace, -⟩ | ⟨-, hsame⟩
    · simp [hresolved] at hplace
    · exact hsame.trans hdirectory
  · rw [← hresolved]
    exact occupant?_fragment hr.hintNames hr.distinct hwrite hf

omit hr h

/-- Writing the fragments of several generators spares what is below none of their directories,
and what is below those only that cannot be looked at. -/
theorem spares_of_writeResults? {results : List GeneratorResult}
    (hresults : ∀ r ∈ results, r.WellNamed) (h : writeResults? out results d = some d') :
    d'.working = d.working ∧ ∀ place,
      (∀ r ∈ results, accepts (out.join ⟨r.generator⟩) = true →
        ¬ d.resolved out ++ [r.generator] <+: place) → Spares out d d' place := by
  induction results generalizing d with
  | nil =>
    obtain rfl := Option.some.inj h
    exact ⟨rfl, fun place _ => .inl rfl⟩
  | cons r rest ih =>
    obtain ⟨hr, hrest⟩ := List.forall_mem_cons.mp hresults
    obtain ⟨first, hfirst, hlater⟩ := Option.bind_eq_some_iff.mp h
    obtain ⟨hworking, hspares⟩ := spares_of_writeResult? hr hfirst
    obtain ⟨hworking', hspares'⟩ := ih hrest hlater
    refine ⟨hworking'.trans hworking, fun place hout => ?_⟩
    obtain ⟨houtFirst, houtRest⟩ := List.forall_mem_cons.mp hout
    refine (hspares place houtFirst).trans hworking (hspares' place ?_)
    rwa [resolved_congr hworking]

/-- Writing the fragments of several generators leaves what is not below their directories,
apart from directories that come where nothing was. -/
theorem grows_of_writeResults? {results : List GeneratorResult}
    (hresults : ∀ r ∈ results, r.WellNamed) (h : writeResults? out results d = some d') :
    d'.working = d.working ∧ ∀ place,
      (∀ r ∈ results, ¬ d.resolved out ++ [r.generator] <+: place) →
        Occupant.Grows (d.root.occupant? place) (d'.root.occupant? place) := by
  obtain ⟨hworking, hspares⟩ := spares_of_writeResults? hresults h
  exact ⟨hworking, fun place hout => (hspares place fun r hr _ => hout r hr).grows⟩

/-- A place is below one name of a directory at most. -/
theorem name_eq_of_below {above place : List String} {name other : String}
    (h : above ++ [name] <+: place) (hother : above ++ [other] <+: place) : name = other := by
  have hsame := (List.prefix_of_prefix_length_le h hother (by simp)).eq_of_length (by simp)
  simpa using hsame

/-- What is below the directory of one generator stays while others write into theirs. -/
theorem grows_of_later {name : String} {results : List GeneratorResult}
    (hresults : ∀ r ∈ results, r.WellNamed) (hother : name ∉ results.map (·.generator))
    (h : writeResults? out results d = some d') {place : List String}
    (hbelow : d.resolved out ++ [name] <+: place) :
    Occupant.Grows (d.root.occupant? place) (d'.root.occupant? place) := by
  refine (grows_of_writeResults? hresults h).2 place fun r hr hin => hother ?_
  exact name_eq_of_below hbelow hin ▸ List.mem_map_of_mem hr

/-- The name of the manifest is a name. -/
theorem isName_manifest : IsName Manifest.fileName.text := by decide

variable {results : List GeneratorResult}

/-- A run makes the output directory, writes the fragments, and writes the manifest last. -/
theorem writeOutputs?_eq_some (h : writeOutputs? out results d = some d') :
    ∃ made written, d.make? out = some made ∧ writeResults? out results made = some written ∧
      written.writeText? (out.join Manifest.fileName) (Manifest.ofResults results).render =
        some d' := by
  obtain ⟨made, hmake, hrest⟩ := Option.bind_eq_some_iff.mp h
  obtain ⟨written, hwrite, hmanifest⟩ := Option.bind_eq_some_iff.mp hrest
  exact ⟨made, written, hmake, hwrite, hmanifest⟩

/-- A run spares what is neither the manifest nor below the directory of a generator that ran,
and what is below those only that cannot be looked at. -/
theorem spares_of_writeOutputs? (hresults : ∀ r ∈ results, r.WellNamed)
    (h : writeOutputs? out results d = some d') :
    d'.working = d.working ∧ ∀ place,
      place ≠ d.resolved out ++ [Manifest.fileName.text] →
      (∀ r ∈ results, accepts (out.join ⟨r.generator⟩) = true →
        ¬ d.resolved out ++ [r.generator] <+: place) → Spares out d d' place := by
  obtain ⟨made, written, hmake, hwrite, hmanifest⟩ := writeOutputs?_eq_some h
  obtain ⟨hworking, hmade⟩ := occupant?_of_make? hmake
  obtain ⟨hworking', hspares⟩ := spares_of_writeResults? hresults hwrite
  obtain ⟨hworking'', hplaces⟩ := occupant?_of_writeBytes? isName_manifest hmanifest
  refine ⟨hworking''.trans (hworking'.trans hworking), fun place hne hout => ?_⟩
  rw [Spares, hplaces, resolved_congr (hworking'.trans hworking), if_neg hne]
  refine Spares.trans (hmade place) hworking (hspares place ?_)
  rwa [resolved_congr hworking]

/-- A run leaves what is neither the manifest nor below the directory of a generator that ran,
apart from directories that come where nothing was. -/
theorem grows_of_writeOutputs? (hresults : ∀ r ∈ results, r.WellNamed)
    (h : writeOutputs? out results d = some d') :
    d'.working = d.working ∧ ∀ place,
      place ≠ d.resolved out ++ [Manifest.fileName.text] →
      (∀ r ∈ results, ¬ d.resolved out ++ [r.generator] <+: place) →
        Occupant.Grows (d.root.occupant? place) (d'.root.occupant? place) := by
  obtain ⟨hworking, hspares⟩ := spares_of_writeOutputs? hresults h
  exact ⟨hworking, fun place hne hout => (hspares place hne fun r hr _ => hout r hr).grows⟩

/-- After a run the way of the output directory is open, and its manifest tells of the run. -/
theorem open_of_writeOutputs? (hresults : ∀ r ∈ results, r.WellNamed)
    (h : writeOutputs? out results d = some d') :
    d'.Open out ∧ d'.root.occupant? (d.resolved out ++ [Manifest.fileName.text]) =
      some (.file (Manifest.ofResults results).render.toUTF8) := by
  obtain ⟨made, written, hmake, hwrite, hmanifest⟩ := writeOutputs?_eq_some h
  have hworking := (grows_of_writeResults? hresults hwrite).1.trans (occupant?_of_make? hmake).1
  obtain ⟨hworking', hplaces⟩ := occupant?_of_writeBytes? isName_manifest hmanifest
  obtain ⟨⟨hreaches, -, hfree⟩, -⟩ := (writeBytes?_join_name_iff isName_manifest).mp hmanifest
  constructor
  · intro place hplace
    rw [way_congr hworking'] at hplace
    rw [hplaces, if_neg, hreaches.2 place hplace]
    rintro rfl
    exact hfree (hreaches.2 _ hplace)
  · rw [hplaces, resolved_congr hworking, if_pos rfl]

/-- After a run the manifest can be read through the path of the output directory. -/
theorem bytes?_manifest_of_writeOutputs? (hresults : ∀ r ∈ results, r.WellNamed)
    (h : writeOutputs? out results d = some d') :
    d'.bytes? (out.join Manifest.fileName) =
      some (Manifest.ofResults results).render.toUTF8 := by
  obtain ⟨_, _, _, _, hmanifest⟩ := writeOutputs?_eq_some h
  obtain ⟨⟨⟨haccepts, -⟩, -, -⟩, -⟩ := (writeBytes?_join_name_iff isName_manifest).mp hmanifest
  obtain ⟨hopen, hfile⟩ := open_of_writeOutputs? hresults h
  rw [← resolved_congr (spares_of_writeOutputs? hresults h).1] at hfile
  exact (bytes?_extend_iff (List.cons_ne_nil _ [])
    (List.forall_mem_singleton.mpr isName_manifest)).mpr ⟨⟨haccepts, hopen⟩, hfile⟩

end Disk

end StubGen
