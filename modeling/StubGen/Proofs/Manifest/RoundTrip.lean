import StubGen.Manifest
import StubGen.Proofs.Json.RoundTrip

/-!
# Written manifests are read back

A manifest is the one that is read from the file it is written to, provided that its sizes are such
that can be written.
-/

namespace StubGen

open Json (Plain)

/-- An entry is written as texts and a whole number. -/
theorem ManifestEntry.plain_toJson (e : ManifestEntry) : Plain e.toJson := by
  refine .ofMembers ?_
  simp only [List.forall_mem_cons]
  exact ⟨.ofString _, .ofString _, .ofString _, .ofNat _, List.forall_mem_nil _⟩

namespace Manifest

variable {d : Disk} {p : Path} {m : Manifest}

/-- A manifest is written as the array of its entries under a key. -/
theorem plain_toJson (m : Manifest) : Plain m.toJson := by
  refine .ofMembers (List.forall_mem_singleton.mpr (.array fun item hitem => ?_))
  obtain ⟨e, -, rfl⟩ := List.mem_map.mp hitem
  exact e.plain_toJson

/-- Written sizes are read back. -/
theorem size?_ofNat {n : Nat} (h : n ≤ largestSize) : size? (.ofNat n) = some n := by
  have hdigits : (toString n).toList = Nat.toDigits 10 n := Nat.toList_repr
  have hnat : (Json.ofNat n).nat? = some n := by
    rw [Json.ofNat, Json.nat?, hdigits, Text.numberOf_toDigits, if_pos]
    exact List.all_eq_true.mpr fun c hc => Text.isDigit_of_mem_toDigits hc
  rw [size?, hnat]
  exact Option.filter_some_pos (decide_eq_true h)

/-- Written entries are read back. -/
theorem entry?_toJson {e : ManifestEntry} (h : e.bytes ≤ largestSize) :
    entry? e.toJson = some e := by
  have hfields : fields? ["generator", "hint_name", "path", "bytes"] e.toJson =
      some [.ofString e.generator, .ofString e.hintName, .ofString e.path.text, .ofNat e.bytes] :=
    rfl
  unfold entry?
  rw [hfields]
  simp only [Option.bind_eq_bind, Option.bind_some, size?_ofNat h]
  rfl

/-- So are sequences of them. -/
theorem mapM_entry?_toJson {entries : List ManifestEntry}
    (h : ∀ e ∈ entries, e.bytes ≤ largestSize) :
    (entries.map (·.toJson)).mapM entry? = some entries := by
  induction entries with
  | nil => rfl
  | cons e entries ih =>
    obtain ⟨hfirst, hrest⟩ := List.forall_mem_cons.mp h
    rw [List.map_cons, List.mapM_cons, entry?_toJson hfirst, ih hrest]
    rfl

/-- The entries of a written manifest are read back. -/
theorem ofJson?_toJson (h : ∀ e ∈ m.files, e.bytes ≤ largestSize) : ofJson? m.toJson = some m := by
  have hfields : fields? ["files"] m.toJson = some [.array (m.files.map (·.toJson))] := rfl
  rw [ofJson?, hfields]
  simp only [Option.bind_eq_bind, Option.bind_some, mapM_entry?_toJson h]

/-- Written manifests are read back. -/
theorem ofText?_render (h : ∀ e ∈ m.files, e.bytes ≤ largestSize) : ofText? m.render = some m := by
  rw [ofText?, render, m.plain_toJson.ofText?_write]
  exact ofJson?_toJson h

/-- A manifest is read back from the file it is written to. -/
theorem ofFile_of_bytes? (hfile : d.bytes? p = some m.render.toUTF8)
    (h : ∀ e ∈ m.files, e.bytes ≤ largestSize) : ofFile d p = .ok m := by
  have hdecoded : String.fromUTF8? m.render.toUTF8 = some m.render :=
    dif_pos m.render.isValidUTF8
  rw [ofFile, Disk.text?, hfile, Option.bind_some, hdecoded]
  simp only [ofText?_render h]

end Manifest

end StubGen
