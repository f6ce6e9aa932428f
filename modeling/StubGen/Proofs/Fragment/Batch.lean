import Mathlib.Data.List.Forall2
import StubGen.Fragment.Emit
import StubGen.Proofs.Fragment.Naming

/-!
# Fragments of a batch

A batch whose types can all be reopened gives one fragment for each record, in the order
of the records, each under a name of its own. Any other batch gives none: it fails because of
its first record whose type cannot be reopened, whatever stands after that one.
-/

namespace StubGen

/-- Classes, structs and interfaces can be reopened. -/
theorem TypeKind.partialKeyword_ok {kind : TypeKind} (henum : kind ≠ .enumKind)
    (hdelegate : kind ≠ .delegateKind) (typeName : String) :
    ∃ keyword, kind.partialKeyword typeName = .ok keyword := by
  cases kind with
  | classKind => exact ⟨_, rfl⟩
  | structKind => exact ⟨_, rfl⟩
  | interfaceKind => exact ⟨_, rfl⟩
  | enumKind => exact absurd rfl henum
  | delegateKind => exact absurd rfl hdelegate

/-- A record whose type can be reopened has a fragment, under the name that is asked for. -/
theorem Record.fragment_ok {r : Record} (henum : r.typeKind ≠ .enumKind)
    (hdelegate : r.typeKind ≠ .delegateKind) (hintName : String) :
    ∃ fragment, r.fragment hintName = .ok fragment ∧ fragment.hintName = hintName := by
  obtain ⟨keyword, hkeyword⟩ := TypeKind.partialKeyword_ok henum hdelegate r.typeName
  refine ⟨{ hintName := hintName, sourceText := (r.template keyword).render }, ?_, rfl⟩
  rw [fragment, hkeyword]
  rfl

/-- The type of the record cannot be reopened. -/
def Record.Offends (r : Record) : Prop := r.typeKind = .enumKind ∨ r.typeKind = .delegateKind

instance : DecidablePred Record.Offends :=
  fun r => inferInstanceAs (Decidable (r.typeKind = .enumKind ∨ r.typeKind = .delegateKind))

/-- A record whose type cannot be reopened has no fragment, under no name. -/
theorem Record.Offends.fragment_eq {r : Record} (h : r.Offends) (hintName : String) :
    r.fragment hintName = .error (.unsupportedTypeKind r.typeName r.typeKind) := by
  rcases h with hkind | hkind
  · rw [fragment, hkind]
    rfl
  · rw [fragment, hkind]
    rfl

namespace Batch

/-- Records whose types can be reopened give one fragment each, under the given names. -/
theorem fragmentsNamed_ok {records : List Record} {names : List String}
    (hlength : names.length = records.length)
    (hkinds : ∀ r ∈ records, r.typeKind ≠ .enumKind ∧ r.typeKind ≠ .delegateKind) :
    ∃ fragments, fragmentsNamed records names = .ok fragments ∧
      fragments.map (·.hintName) = names ∧
      List.Forall₂ (fun r f => r.fragment f.hintName = .ok f) records fragments := by
  induction records generalizing names with
  | nil =>
    obtain rfl := List.length_eq_zero_iff.mp hlength
    exact ⟨[], rfl, rfl, .nil⟩
  | cons r records ih =>
    cases names with
    | nil => simp at hlength
    | cons hintName names =>
      obtain ⟨henum, hdelegate⟩ := hkinds r List.mem_cons_self
      obtain ⟨fragment, hfragment, hname⟩ := Record.fragment_ok henum hdelegate hintName
      obtain ⟨rest, hrest, hnames, hmatch⟩ := ih (Nat.succ.inj hlength)
        fun s hs => hkinds s (List.mem_cons_of_mem _ hs)
      refine ⟨fragment :: rest, ?_, ?_, .cons ?_ hmatch⟩
      · rw [fragmentsNamed, hfragment, hrest]
        rfl
      · rw [List.map_cons, hname, hnames]
      · rw [hname, hfragment]

/-- With a name for each record, the first record whose type cannot be reopened decides that there
are no fragments, and why. -/
theorem fragmentsNamed_eq_error_iff {records : List Record} {names : List String}
    (hlength : names.length = records.length) {e : GeneratorError} :
    fragmentsNamed records names = .error e ↔
      ∃ r, records.find? (fun r => r.Offends) = some r ∧
        e = .unsupportedTypeKind r.typeName r.typeKind := by
  induction records generalizing names with
  | nil => simp [fragmentsNamed]
  | cons first records ih =>
    cases names with
    | nil => simp at hlength
    | cons hintName names =>
      rw [fragmentsNamed]
      by_cases hfirst : first.Offends
      · rw [hfirst.fragment_eq, List.find?_cons_of_pos (by simpa using hfirst)]
        simp [bind, Except.bind, eq_comm]
      · obtain ⟨henum, hdelegate⟩ := not_or.mp hfirst
        obtain ⟨fragment, hfragment, -⟩ := Record.fragment_ok henum hdelegate hintName
        rw [hfragment, List.find?_cons_of_neg (by simpa using hfirst),
          ← ih (Nat.succ.inj hlength)]
        -- What the first record gives is dropped if a later one fails.
        cases fragmentsNamed records names <;> simp [bind, Except.bind]

/-- A batch asks for as many names as it has records. -/
theorem length_fileNames (b : Batch) (suffix : String) :
    (b.fileNames suffix).length = b.length := by
  simp [fileNames]

/-- The names of the fragments of a batch are all different. -/
theorem fileNames_nodup (b : Batch) (suffix : String) : (b.fileNames suffix).Nodup :=
  FileName.allocate_nodup _ _

/-- The names of the fragments of a batch end in the given ending. -/
theorem exists_eq_of_mem_fileNames {b : Batch} {suffix name : String}
    (h : name ∈ b.fileNames suffix) : ∃ base, name = base ++ suffix := by
  obtain ⟨request, hrequest, base, rfl⟩ := FileName.exists_eq_of_mem_allocate h
  obtain ⟨r, -, rfl⟩ := List.mem_map.mp hrequest
  exact ⟨base, rfl⟩

/-- A batch whose types can all be reopened gives one fragment for each record, in order and
under the file names of the batch. -/
theorem fragments_ok {b : Batch}
    (hkinds : ∀ r ∈ b, r.typeKind ≠ .enumKind ∧ r.typeKind ≠ .delegateKind) (suffix : String) :
    ∃ fragments, b.fragments suffix = .ok fragments ∧
      fragments.map (·.hintName) = b.fileNames suffix ∧
      List.Forall₂ (fun r f => r.fragment f.hintName = .ok f) b fragments :=
  fragmentsNamed_ok (b.length_fileNames suffix) hkinds

/-- A batch fails because of its first record whose type cannot be reopened. -/
theorem fragments_eq_error_iff {b : Batch} {suffix : String} {e : GeneratorError} :
    b.fragments suffix = .error e ↔
      ∃ r, b.find? (fun r => r.Offends) = some r ∧
        e = .unsupportedTypeKind r.typeName r.typeKind :=
  fragmentsNamed_eq_error_iff (b.length_fileNames suffix)

/-- A batch that does not fail gives fragments for its records in order, under the file names of
the batch. -/
theorem fragments_eq_ok {b : Batch} {suffix : String} {fragments : List Fragment}
    (h : b.fragments suffix = .ok fragments) :
    (∀ r ∈ b, ¬ r.Offends) ∧ fragments.map (·.hintName) = b.fileNames suffix ∧
      List.Forall₂ (fun r f => r.fragment f.hintName = .ok f) b fragments := by
  have hkinds : ∀ r ∈ b, ¬ r.Offends := by
    cases hfirst : b.find? (fun r => r.Offends) with
    | none => simpa using hfirst
    | some r =>
      have herror : b.fragments suffix = .error (.unsupportedTypeKind r.typeName r.typeKind) :=
        fragments_eq_error_iff.mpr ⟨r, hfirst, rfl⟩
      cases h.symm.trans herror
  obtain ⟨given, hgiven, hnames, hmatch⟩ :=
    fragments_ok (fun r hr => not_or.mp (hkinds r hr)) suffix
  obtain rfl := Except.ok.inj (hgiven.symm.trans h)
  exact ⟨hkinds, hnames, hmatch⟩

/-- Collecting the results of a projection keeps the records among them, in order. -/
theorem map_some_collect (results : List (Option Record)) :
    (collect results).map some = results.filter (·.isSome) := by
  induction results with
  | nil => rfl
  | cons result rest ih =>
    cases result with
    | none => exact ih
    | some r => exact congrArg (some r :: ·) ih

/-- The results of a projection give everything or nothing. There are fragments exactly if the
type of every record among the results can be reopened. Then there is one for each of
these records in order, each under a name that no other one has. Otherwise there is only the
failure of the first record whose type cannot be reopened. -/
theorem collect_fragments_all_or_nothing (results : List (Option Record)) (suffix : String) :
    let kept := collect results
    kept.map some = results.filter (·.isSome) ∧
      ((∃ fragments, kept.fragments suffix = .ok fragments) ↔ ∀ r ∈ kept, ¬ r.Offends) ∧
      (∀ fragments, kept.fragments suffix = .ok fragments →
        (fragments.map (·.hintName)).Nodup ∧
          List.Forall₂ (fun r f => r.fragment f.hintName = .ok f) kept fragments) ∧
      ∀ e, kept.fragments suffix = .error e ↔
        ∃ r, kept.find? (fun r => r.Offends) = some r ∧
          e = .unsupportedTypeKind r.typeName r.typeKind := by
  refine ⟨map_some_collect results, ⟨?_, ?_⟩, ?_, fun e => fragments_eq_error_iff⟩
  · rintro ⟨fragments, h⟩
    exact (fragments_eq_ok h).1
  · intro hkinds
    obtain ⟨fragments, h, -⟩ := fragments_ok (fun r hr => not_or.mp (hkinds r hr)) suffix
    exact ⟨fragments, h⟩
  · intro fragments h
    obtain ⟨-, hnames, hmatch⟩ := fragments_eq_ok h
    exact ⟨hnames ▸ fileNames_nodup _ _, hmatch⟩

/-- Fragments of more records under more names begin with those of the first records. -/
theorem prefix_fragments {b more : Batch} {fragments moreFragments : List Fragment}
    (hrecords : b <+: more)
    (hnames : fragments.map (·.hintName) <+: moreFragments.map (·.hintName))
    (hmatch : List.Forall₂ (fun r f => r.fragment f.hintName = .ok f) b fragments)
    (hmatchMore : List.Forall₂ (fun r f => r.fragment f.hintName = .ok f) more moreFragments) :
    fragments <+: moreFragments := by
  induction hmatch generalizing more moreFragments with
  | nil => exact List.nil_prefix
  | @cons r f records fragments hf hrest ih =>
    obtain ⟨later, rfl⟩ := hrecords
    rw [List.cons_append] at hmatchMore
    cases hmatchMore with
    | @cons _ g _ moreFragments hg hrestMore =>
      rw [List.map_cons, List.map_cons, List.cons_prefix_cons] at hnames
      obtain ⟨hname, hnames⟩ := hnames
      -- A fragment is determined by its record and its name.
      have hsame : f = g := by
        rw [hname, hg] at hf
        exact (Except.ok.inj hf).symm
      exact List.cons_prefix_cons.mpr
        ⟨hsame, ih (List.prefix_append records later) hnames hrestMore⟩

end Batch

end StubGen
