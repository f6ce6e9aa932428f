import StubGen.Proofs.Command.Written

/-!
# Writing the same once more

A run that is repeated on the disk that it left does every step again. While it does, each place
of its disk looks as it did after the same step of the first run, or as it does at the end. So
no step can fail that did not fail before, and at the end nothing has changed.

The way of the output directory may lead through the directories of the generators. While these
are cleared the way is interrupted, and what is done then depends on the interruption, so the
way is compared with the first run's at every step.
-/

namespace StubGen

open StubGen.Path (IsName)

namespace Disk

/-- A disk of the repeated run, beside that of the first run after the same step: each place is
as in the first run or as it is in the end, and on the way of the output directory nothing
differs. -/
structure Between (final : Disk) (out : Path) (d e : Disk) : Prop where
  working : e.working = d.working
  way : ∀ place ∈ d.way out, e.root.occupant? place = d.root.occupant? place
  places : ∀ place, e.root.occupant? place = d.root.occupant? place ∨
    e.root.occupant? place = final.root.occupant? place

namespace Between

variable {final d d' e e' : Disk} {out : Path} {name : String}

/-- A change that fills the same region in the same way on both disks. -/
theorem overlay (h : Between final out d e) (region : List String → Prop) [DecidablePred region]
    (filling : Option Occupant) (hworking : d'.working = d.working)
    (hworking' : e'.working = e.working)
    (hplaces : ∀ place, d'.root.occupant? place =
      if region place then filling else d.root.occupant? place)
    (hplaces' : ∀ place, e'.root.occupant? place =
      if region place then filling else e.root.occupant? place) :
    Between final out d' e' where
  working := hworking'.trans (h.working.trans hworking.symm)
  way place hplace := by
    rw [hplaces, hplaces', h.way place (way_congr hworking out ▸ hplace)]
  places place := by
    rw [hplaces, hplaces']
    split
    · exact .inl rfl
    · exact h.places place

/-- A name in the output directory can be reached in both runs or in neither. -/
theorem reaches_iff (h : Between final out d e) : e.Reaches out name ↔ d.Reaches out name := by
  refine and_congr_right fun _ => ?_
  rw [Open, Open, way_congr h.working]
  exact forall₂_congr fun place hplace => by rw [h.way place hplace]

/-- The place of a path is the same in both runs. -/
theorem resolved_eq (h : Between final out d e) (p : Path) : e.resolved p = d.resolved p :=
  resolved_congr h.working p

variable (hname : IsName name)
include hname

/-- What could be cleared can be cleared again. -/
theorem clear? (h : Between final out d e) (hclear : d.clear? (out.join ⟨name⟩) = some d')
    (hfinal : d.Reaches out name → ∀ content,
      final.root.occupant? (d.resolved out ++ [name]) ≠ some (.file content)) :
    ∃ e', e.clear? (out.join ⟨name⟩) = some e' ∧ Between final out d' e' := by
  by_cases hreaches : d.Reaches out name
  · obtain ⟨hworking, hfree, hplaces⟩ := occupant?_of_clear? hname hreaches hclear
    have hreaches' := h.reaches_iff.mpr hreaches
    have hclears : e.Reaches out name → ∀ content,
        e.root.occupant? (e.resolved out ++ [name]) ≠ some (.file content) := by
      intro _ content
      rw [h.resolved_eq]
      rcases h.places (d.resolved out ++ [name]) with hsame | hsame
      · exact hsame ▸ hfree content
      · exact hsame ▸ hfinal hreaches content
    obtain ⟨e', hclear'⟩ := exists_clear? hname hclears
    obtain ⟨hworking', -, hplaces'⟩ := occupant?_of_clear? hname hreaches' hclear'
    rw [h.resolved_eq] at hplaces'
    exact ⟨e', hclear', h.overlay (d.resolved out ++ [name] <+: ·) none hworking hworking' hplaces
      hplaces'⟩
  · have hclear' := clear?_of_not_reaches hname (mt h.reaches_iff.mp hreaches)
    obtain rfl := Option.some.inj ((clear?_of_not_reaches hname hreaches).symm.trans hclear)
    exact ⟨e, hclear', h⟩

/-- If the way up to a name is open in the first run, it is in the repeated run, provided that
a directory stands there in the end. -/
theorem open_join (h : Between final out d e)
    (hfinal : final.root.occupant? (d.resolved out ++ [name]) = some .directory)
    (hopen : d.Open (out.join ⟨name⟩)) : e.Open (out.join ⟨name⟩) := by
  obtain ⟨hway, hdirectory⟩ := (open_join_name_iff hname).mp hopen
  refine (open_join_name_iff hname).mpr ⟨fun place hplace => ?_, ?_⟩
  · rw [way_congr h.working] at hplace
    rw [h.way place hplace, hway place hplace]
  · rw [h.resolved_eq]
    rcases h.places (d.resolved out ++ [name]) with hsame | hsame
    · exact hsame.trans hdirectory
    · exact hsame.trans hfinal

/-- A directory that could be made can be made again. -/
theorem make? (h : Between final out d e) (hmake : d.make? (out.join ⟨name⟩) = some d')
    (hopen : d'.Open (out.join ⟨name⟩))
    (hfinal : final.root.occupant? (d.resolved out ++ [name]) = some .directory) :
    ∃ e', e.make? (out.join ⟨name⟩) = some e' ∧ Between final out d' e' := by
  have hsame : ∀ place ∈ d.way (out.join ⟨name⟩),
      e.root.occupant? place = d.root.occupant? place ∨ e.root.occupant? place = some .directory := by
    intro place hplace
    rcases (mem_way_join_name hname).mp hplace with hway | rfl
    · exact .inl (h.way place hway)
    · exact (h.places _).imp_right (·.trans hfinal)
  obtain ⟨e', hmake', hafter⟩ := make?_follows hmake h.working hsame
  obtain ⟨hworking, hplaces⟩ := occupant?_of_make? hmake
  obtain ⟨hworking', hplaces'⟩ := occupant?_of_make? hmake'
  have hfilled place : d'.root.occupant? place =
      if place ∈ d.way (out.join ⟨name⟩) then some .directory else d.root.occupant? place := by
    split
    · rename_i hplace
      exact hopen place (way_congr hworking _ ▸ hplace)
    · rename_i hplace
      exact (hplaces place).resolve_right fun hnew => hplace hnew.1
  refine ⟨e', hmake', h.overlay (· ∈ d.way (out.join ⟨name⟩)) (some .directory) hworking hworking'
    hfilled fun place => ?_⟩
  split
  · rename_i hplace
    exact (hafter place hplace).elim (·.trans ((hfilled place).trans (if_pos hplace))) id
  · rename_i hplace
    exact (hplaces' place).resolve_right fun hnew => hplace (way_congr h.working _ ▸ hnew.1)

omit hname

/-- A file that could be written can be written again. -/
theorem writeBytes? {p : Path} (h : Between final out d e) (hname : IsName name)
    {content : ByteArray} (hwrite : d.writeBytes? (p.join ⟨name⟩) content = some d')
    (hopen : e.Open p)
    (hfinal : final.root.occupant? (d.resolved p ++ [name]) = some (.file content)) :
    ∃ e', e.writeBytes? (p.join ⟨name⟩) content = some e' ∧ Between final out d' e' := by
  obtain ⟨⟨hreaches, hfits, hfree⟩, -⟩ := (writeBytes?_join_name_iff hname).mp hwrite
  have hfree' : e.root.occupant? (e.resolved p ++ [name]) ≠ some .directory := by
    rw [h.resolved_eq]
    rcases h.places (d.resolved p ++ [name]) with hsame | hsame
    · exact hsame ▸ hfree
    · simp [hsame, hfinal]
  obtain ⟨e', hwrite'⟩ : ∃ e', e.writeBytes? (p.join ⟨name⟩) content = some e' :=
    ⟨_, (writeBytes?_join_name_iff hname).mpr ⟨⟨⟨hreaches.1, hopen⟩, hfits, hfree'⟩, rfl⟩⟩
  obtain ⟨hworking, hplaces⟩ := occupant?_of_writeBytes? hname hwrite
  obtain ⟨hworking', hplaces'⟩ := occupant?_of_writeBytes? hname hwrite'
  rw [h.resolved_eq] at hplaces'
  exact ⟨e', hwrite', h.overlay (· = d.resolved p ++ [name]) _ hworking hworking' hplaces hplaces'⟩

/-- Fragments that could be written can be written again. -/
theorem writeFragments? {fragments : List Fragment} (h : Between final out d e)
    (hname : IsName name) (hnames : ∀ f ∈ fragments, IsName f.hintName)
    (hwrite : writeFragments? (out.join ⟨name⟩) fragments d = some d')
    (hdirectory : final.root.occupant? (d.resolved out ++ [name]) = some .directory)
    (hfiles : ∀ f ∈ fragments,
      final.root.occupant? (d.resolved out ++ [name] ++ [f.hintName]) = some f.occupant) :
    ∃ e', Disk.writeFragments? (out.join ⟨name⟩) fragments e = some e' ∧
      Between final out d' e' := by
  induction fragments generalizing d e with
  | nil => exact ⟨e, rfl, Option.some.inj hwrite ▸ h⟩
  | cons f rest ih =>
    have hopen := h.open_join hname hdirectory
      (open_of_writeFragments? (List.cons_ne_nil f rest) hnames hwrite)
    obtain ⟨hf, hrest⟩ := List.forall_mem_cons.mp hnames
    obtain ⟨hfile, hfilesRest⟩ := List.forall_mem_cons.mp hfiles
    obtain ⟨first, hfirst, hlater⟩ := Option.bind_eq_some_iff.mp hwrite
    obtain ⟨hworking, -⟩ := occupant?_of_writeBytes? hf hfirst
    obtain ⟨e₁, hfirst', hbetween⟩ := h.writeBytes? hf hfirst hopen
      (by rw [resolved_join_name hname]; exact hfile)
    rw [← resolved_congr hworking out] at hdirectory hfilesRest
    obtain ⟨e', hlater', hbetween'⟩ := ih hbetween hrest hlater hdirectory hfilesRest
    exact ⟨e', Option.bind_eq_some_iff.mpr ⟨e₁, hfirst', hlater'⟩, hbetween'⟩

/-- The fragments of a generator that could be written can be written again, if what is in its
directory stays until the end. -/
theorem writeResult? {r : GeneratorResult} (h : Between final out d e) (hr : r.WellNamed)
    (hwrite : writeResult? out r d = some d')
    (hstays : ∀ place, d.resolved out ++ [r.generator] <+: place →
      Occupant.Grows (d'.root.occupant? place) (final.root.occupant? place)) :
    ∃ e', Disk.writeResult? out r e = some e' ∧ Between final out d' e' := by
  have hfree : d.Reaches out r.generator → ∀ content,
      final.root.occupant? (d.resolved out ++ [r.generator]) ≠ some (.file content) := by
    intro hreaches content hfile
    have hbelow := List.prefix_refl (d.resolved out ++ [r.generator])
    rw [(hstays _ hbelow).file_iff, file_of_writeResult? hr hwrite hreaches hbelow] at hfile
    obtain ⟨f, -, hplace, -⟩ := hfile
    simp at hplace
  obtain ⟨cleared, hclear, hrest⟩ := writeResult?_eq_some hwrite
  obtain ⟨e₁, hclear', hbetween⟩ := h.clear? hr.generator hclear hfree
  rcases hrest with ⟨hempty, rfl⟩ | ⟨hne, made, hmake, hfragments⟩
  · refine ⟨e₁, Option.bind_eq_some_iff.mpr ⟨e₁, hclear', ?_⟩, hbetween⟩
    simp [hempty]
  · obtain ⟨hdirectory, hfiles⟩ := occupant?_of_writeResult? hr hwrite hne
    have hdirectory' := ((hstays _ (List.prefix_refl _)).eq_of_ne_none (by simp [hdirectory])).trans
      hdirectory
    have hfiles' : ∀ f ∈ r.sources, final.root.occupant?
        (d.resolved out ++ [r.generator] ++ [f.hintName]) = some f.occupant := fun f hf =>
      ((hstays _ (List.prefix_append _ _)).eq_of_ne_none (hfiles f hf ▸ Option.some_ne_none _)).trans
        (hfiles f hf)
    obtain ⟨hworking, -⟩ := occupant?_of_clear?_outside hr.generator hclear
    rw [← resolved_congr hworking] at hdirectory'
    obtain ⟨e₂, hmake', hbetween'⟩ := hbetween.make? hr.generator hmake
      (open_of_writeFragments? hne hr.hintNames hfragments) hdirectory'
    rw [resolved_congr hworking,
      ← resolved_congr ((occupant?_of_make? hmake).1.trans hworking)] at hdirectory'
    rw [← resolved_congr ((occupant?_of_make? hmake).1.trans hworking)] at hfiles'
    obtain ⟨e₃, hfragments', hbetween''⟩ :=
      hbetween'.writeFragments? hr.generator hr.hintNames hfragments hdirectory' hfiles'
    refine ⟨e₃, Option.bind_eq_some_iff.mpr ⟨e₁, hclear', ?_⟩, hbetween''⟩
    rw [if_neg (mt List.isEmpty_iff.mp hne)]
    exact Option.bind_eq_some_iff.mpr ⟨e₂, hmake', hfragments'⟩

/-- The fragments of several generators that could be written can be written again, if what is
in their directories stays until the end. -/
theorem writeResults? {results : List GeneratorResult} (h : Between final out d e)
    (hresults : ∀ r ∈ results, r.WellNamed) (hdistinct : (results.map (·.generator)).Nodup)
    (hwrite : writeResults? out results d = some d')
    (hstays : ∀ r ∈ results, ∀ place, d.resolved out ++ [r.generator] <+: place →
      Occupant.Grows (d'.root.occupant? place) (final.root.occupant? place)) :
    ∃ e', Disk.writeResults? out results e = some e' ∧ Between final out d' e' := by
  induction results generalizing d e with
  | nil => exact ⟨e, rfl, Option.some.inj hwrite ▸ h⟩
  | cons r rest ih =>
    obtain ⟨hr, hrest⟩ := List.forall_mem_cons.mp hresults
    obtain ⟨hother, hdistinctRest⟩ := List.nodup_cons.mp hdistinct
    obtain ⟨hstaysFirst, hstaysRest⟩ := List.forall_mem_cons.mp hstays
    obtain ⟨first, hfirst, hlater⟩ := Option.bind_eq_some_iff.mp hwrite
    obtain ⟨hworking, -⟩ := grows_of_writeResult? hr hfirst
    -- The later generators write into other directories.
    have hkept place (hbelow : d.resolved out ++ [r.generator] <+: place) :
        Occupant.Grows (first.root.occupant? place) (final.root.occupant? place) :=
      (grows_of_later hrest hother hlater (resolved_congr hworking out ▸ hbelow)).trans
        (hstaysFirst place hbelow)
    obtain ⟨e₁, hfirst', hbetween⟩ := h.writeResult? hr hfirst hkept
    rw [← resolved_congr hworking] at hstaysRest
    obtain ⟨e', hlater', hbetween'⟩ := ih hbetween hrest hdistinctRest hlater hstaysRest
    exact ⟨e', Option.bind_eq_some_iff.mpr ⟨e₁, hfirst', hlater'⟩, hbetween'⟩

end Between

/-- A run that succeeded can be repeated on the disk that it left, and changes nothing. -/
theorem writeOutputs?_again {d d' : Disk} {out : Path} {results : List GeneratorResult}
    (hstart : d.root.occupant? (d.startOf out) = some .directory)
    (hresults : ∀ r ∈ results, r.WellNamed) (hdistinct : (results.map (·.generator)).Nodup)
    (hmanifest : ∀ r ∈ results, r.generator ≠ Manifest.fileName.text)
    (h : writeOutputs? out results d = some d') :
    ∃ e, writeOutputs? out results d' = some e ∧ e.Same d' := by
  obtain ⟨made, written, hmake, hwrite, hlast⟩ := writeOutputs?_eq_some h
  obtain ⟨hopen, hfile⟩ := open_of_writeOutputs? hresults h
  have hworking := (grows_of_writeOutputs? hresults h).1
  have hworkingMade := (occupant?_of_make? hmake).1
  have hworkingWritten := (grows_of_writeResults? hresults hwrite).1
  obtain ⟨-, hplaces⟩ := occupant?_of_writeBytes? isName_manifest hlast
  -- On the disk that was left, the output directory is there.
  obtain ⟨e₁, hmake', hafter⟩ := make?_follows hmake hworking fun place hplace =>
    .inr (hopen place (way_congr hworking out ▸ hplace))
  have hopenMade := open_of_make? hmake hstart
  obtain ⟨hworking', hplaces'⟩ := occupant?_of_make? hmake'
  have hbetween : Between d' out made e₁ := {
    working := hworking'.trans (hworking.trans hworkingMade.symm)
    way := fun place hplace => by
      have hdirectory := hopenMade place hplace
      have hsame := hafter place (way_congr hworkingMade out ▸ hplace)
      exact hsame.elim id (·.trans hdirectory.symm)
    places := fun place => .inr ((hplaces' place).resolve_right fun hnew => by
      simp [hopen place hnew.1] at hnew) }
  obtain ⟨e₂, hwrite', hbetween'⟩ := hbetween.writeResults? hresults hdistinct hwrite
    fun r hr place hbelow => .inl (by
      rw [hplaces, if_neg]
      rintro rfl
      rw [resolved_congr hworkingWritten, List.prefix_append_right_inj] at hbelow
      exact hmanifest r hr (by simpa using hbelow))
  obtain ⟨⟨hreaches, -, -⟩, -⟩ := (writeBytes?_join_name_iff isName_manifest).mp hlast
  have hopen' : e₂.Open out := fun place hplace => by
    rw [way_congr hbetween'.working] at hplace
    exact (hbetween'.way place hplace).trans (hreaches.2 place hplace)
  rw [← resolved_congr (hworkingWritten.trans hworkingMade)] at hfile
  obtain ⟨e₃, hlast', hsame⟩ := hbetween'.writeBytes? isName_manifest hlast hopen' hfile
  refine ⟨e₃, ?_, hsame.working, fun place => (hsame.places place).elim id id⟩
  exact Option.bind_eq_some_iff.mpr ⟨e₁, hmake', Option.bind_eq_some_iff.mpr ⟨e₂, hwrite', hlast'⟩⟩

end Disk

end StubGen
