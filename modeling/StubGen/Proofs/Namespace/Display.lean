import StubGen.Proofs.Namespace.RootMark
import StubGen.Proofs.Namespace.Segments

/-!
# Namespaces and their textual forms

A namespace whose segments can be told apart is read back from its dotted form, and no other
one is. The full form is the dotted form under a root mark, so taking the mark off leaves the
dotted form whatever the segments are, and taking it off twice leaves something else exactly
if the first segment brings a mark of its own.
-/

namespace StubGen.Namespace

open Text

/-- Segments with dots between them are read as these segments. -/
theorem ofDotted_joined {segments : List String} (h : ∀ s ∈ segments, IsSegment s) :
    ofDotted (joined "." segments) = ⟨segments⟩ := by
  by_cases hnil : segments = []
  · rw [hnil]
    rfl
  · have hkept : segments.filter (· != "") = segments :=
      List.filter_eq_self.mpr fun s hs => by simpa using (h s hs).ne_empty
    rw [ofDotted, splitAt_joined hnil fun s hs => (h s hs).no_dot, hkept]

/-- The namespaces that are read back from their dotted form are the proper ones. -/
theorem ofDotted_minimalDisplay_iff {n : Namespace} :
    ofDotted n.minimalDisplay = n ↔ n.Proper := by
  constructor
  · intro h
    rw [← h]
    exact ofDotted_proper _
  · exact ofDotted_joined

/-- The dotted form is rooted if the first segment is. -/
theorem isRooted_minimalDisplay_iff {n : Namespace} :
    IsRooted n.minimalDisplay ↔ ∃ first ∈ n.segments.head?, IsRooted first :=
  isRooted_joined_iff n.segments

/-- Taking the mark off the full form leaves the dotted form. -/
theorem withoutRootMark_fullDisplay (n : Namespace) :
    withoutRootMark n.fullDisplay = n.minimalDisplay :=
  withoutRootMark_rootMark_append n.minimalDisplay

/-- Without two colons in a row in a segment the dotted form is not rooted. -/
theorem not_isRooted_minimalDisplay {n : Namespace}
    (h : ∀ s ∈ n.segments, ¬ [':', ':'] <:+: s.toList) : ¬ IsRooted n.minimalDisplay := by
  intro hdotted
  obtain ⟨first, hfirst, hrooted⟩ := isRooted_minimalDisplay_iff.mp hdotted
  exact not_isRooted_of_not_infix (h first (List.mem_of_mem_head? hfirst)) hrooted

/-- Namespaces survive their textual forms. A list of segments is read back from its dotted
form exactly if each of them is a segment; a namespace that was read off any text is read off
its own dotted form again. The namespaces around a namespace are its proper prefixes in the
order of the way out. The full form without its mark is the dotted form, and to take a mark off
once more changes nothing unless the first segment is rooted, so never if no segment holds
two colons in a row. -/
theorem survives_textual_forms (n : Namespace) :
    ((ofDotted (joined "." n.segments)).segments = n.segments ↔
        ∀ s ∈ n.segments, IsSegment s) ∧
      (∀ text, ofDotted (ofDotted text).minimalDisplay = ofDotted text) ∧
      n.WayOut n.allContaining ∧
      withoutRootMark n.fullDisplay = n.minimalDisplay ∧
      (withoutRootMark (withoutRootMark n.fullDisplay) = withoutRootMark n.fullDisplay ↔
        ∀ first ∈ n.segments.head?, ¬ IsRooted first) ∧
      ((∀ s ∈ n.segments, ¬ [':', ':'] <:+: s.toList) →
        withoutRootMark (withoutRootMark n.fullDisplay) = withoutRootMark n.fullDisplay) := by
  have hread : (ofDotted (joined "." n.segments)).segments = n.segments ↔ n.Proper := by
    rw [← ofDotted_minimalDisplay_iff]
    exact ⟨eq_of_segments_eq, congrArg segments⟩
  have htwice : withoutRootMark n.minimalDisplay = n.minimalDisplay ↔
      ∀ first ∈ n.segments.head?, ¬ IsRooted first := by
    rw [withoutRootMark_eq_self_iff, isRooted_minimalDisplay_iff]
    simp only [not_exists, not_and]
  refine ⟨hread, fun text => ofDotted_minimalDisplay_iff.mpr (ofDotted_proper text),
    wayOut_allContaining n, withoutRootMark_fullDisplay n, ?_, fun hcolons => ?_⟩
  · rw [withoutRootMark_fullDisplay]
    exact htwice
  · rw [withoutRootMark_fullDisplay]
    exact withoutRootMark_eq_self_iff.mpr (not_isRooted_minimalDisplay hcolons)

/-- Colons on both sides of a dot do not make a mark. -/
theorem survives_textual_forms_colons :
    (∀ s ∈ ["global:", ":Greetings"], ¬ [':', ':'] <:+: s.toList) ∧
      (ofDotted "global:.:Greetings").segments = ["global:", ":Greetings"] ∧
      withoutRootMark (withoutRootMark "global::global:.:Greetings") = "global:.:Greetings" := by
  have hcolons : ∀ s ∈ ["global:", ":Greetings"], ¬ [':', ':'] <:+: s.toList := by decide +kernel
  obtain ⟨hread, -, -, honce, -, htwice⟩ := survives_textual_forms ⟨["global:", ":Greetings"]⟩
  exact ⟨hcolons, hread.mpr (by decide +kernel), (htwice hcolons).trans honce⟩

end StubGen.Namespace
