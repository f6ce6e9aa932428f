import Mathlib.Data.List.Basic
import StubGen.Text.Pieces

/-!
# Dotted names

A dotted name consists of segments that are not empty and hold no dot, with single dots
between them. It is determined by its segments, and cutting it at its last dot separates
the last segment from the ones before.
-/

namespace StubGen.Text

/-- A text that can stand between dots. -/
structure IsSegment (s : String) : Prop where
  ne_empty : s ≠ ""
  no_dot : '.' ∉ s.toList

instance (s : String) : Decidable (IsSegment s) :=
  decidable_of_iff (s ≠ "" ∧ '.' ∉ s.toList)
    ⟨fun h => ⟨h.1, h.2⟩, fun h => ⟨h.ne_empty, h.no_dot⟩⟩

/-- A name of one or more segments with single dots between them. -/
def IsDotted (name : String) : Prop :=
  ∃ segments ≠ [], (∀ s ∈ segments, IsSegment s) ∧ joined "." segments = name

/-- What begins a list and holds no separator lies in front of the first separator. -/
theorem prefix_append_cons_iff {α : Type} {sep : α} {start before after : List α}
    (h : sep ∉ start) : start <+: before ++ sep :: after ↔ start <+: before := by
  refine ⟨fun hstart => ?_, List.prefix_append_of_prefix⟩
  have hupto : before ++ [sep] <+: before ++ sep :: after := ⟨after, by simp⟩
  rcases List.prefix_or_prefix_of_prefix hstart hupto with hshort | hlong
  · rcases List.prefix_concat_iff.mp hshort with rfl | hbefore
    · exact absurd List.mem_concat_self h
    · exact hbefore
  · exact absurd (hlong.subset List.mem_concat_self) h

/-- What follows the beginning of a text. -/
theorem afterStart?_eq_some {start s rest : String} :
    afterStart? start s = some rest ↔ start ++ rest = s := by
  simp only [afterStart?, Option.map_eq_some_iff, List.isPrefixOf?_eq_some_iff_append_eq]
  constructor
  · rintro ⟨cs, hcs, rfl⟩
    rw [← String.toList_inj, String.toList_append, String.toList_ofList, hcs]
  · rintro rfl
    exact ⟨rest.toList, String.toList_append.symm, String.ofList_toList⟩

/-- What comes before the ending of a text. -/
theorem beforeEnd?_eq_some {ending s rest : String} :
    beforeEnd? ending s = some rest ↔ rest ++ ending = s := by
  simp only [beforeEnd?, Option.map_eq_some_iff, List.isSuffixOf?_eq_some_iff_append_eq]
  constructor
  · rintro ⟨cs, hcs, rfl⟩
    rw [← String.toList_inj, String.toList_append, String.toList_ofList, hcs]
  · rintro rfl
    exact ⟨rest.toList, String.toList_append.symm, String.ofList_toList⟩

/-- A text with a single dot is cut at it in one way. -/
theorem append_dot_inj {first second first' second' : String} (hfirst : '.' ∉ first.toList)
    (hsecond : '.' ∉ second.toList) :
    first ++ "." ++ second = first' ++ "." ++ second' ↔ first = first' ∧ second = second' := by
  have hchars (a b : String) : (a ++ "." ++ b).toList = a.toList ++ '.' :: b.toList := by simp
  rw [← String.toList_inj, hchars, hchars, List.append_cons_inj_of_notMem hfirst hsecond,
    String.toList_inj, String.toList_inj]
  exact and_congr_right fun _ => and_iff_right rfl

/-- Joining one more text at the front. -/
theorem joined_cons {sep s : String} {rest : List String} (h : rest ≠ []) :
    joined sep (s :: rest) = s ++ sep ++ joined sep rest := by
  cases rest with
  | nil => exact absurd rfl h
  | cons t rest => rfl

/-- Joining two sequences that are not empty. -/
theorem joined_append {sep : String} {first second : List String} (hfirst : first ≠ [])
    (hsecond : second ≠ []) :
    joined sep (first ++ second) = joined sep first ++ sep ++ joined sep second := by
  induction first with
  | nil => exact absurd rfl hfirst
  | cons s rest ih =>
    cases rest with
    | nil => exact joined_cons hsecond
    | cons t rest =>
      rw [List.cons_append, joined_cons (by simp), ih (List.cons_ne_nil t rest),
        joined_cons (List.cons_ne_nil t rest)]
      simp only [String.append_assoc]

/-- Splitting at the dots gives back texts that were joined with dots and hold none themselves. -/
theorem splitAt_joined {texts : List String} (hne : texts ≠ [])
    (h : ∀ s ∈ texts, '.' ∉ s.toList) : splitAt '.' (joined "." texts) = texts := by
  induction texts with
  | nil => exact absurd rfl hne
  | cons s rest ih =>
    obtain ⟨hs, hrest⟩ := List.forall_mem_cons.mp h
    have hfirst : pieces '.' s.toList = [s.toList] := pieces_of_not_mem hs
    by_cases hnil : rest = []
    · rw [hnil, joined, splitAt, hfirst]
      simp
    · have hchars : (joined "." (s :: rest)).toList =
          s.toList ++ '.' :: (joined "." rest).toList := by
        rw [joined_cons hnil]
        simp
      rw [splitAt, hchars, pieces_append_cons, hfirst, List.map_append]
      have hlater := ih hnil hrest
      rw [splitAt] at hlater
      rw [hlater]
      simp

/-- Joining a sequence with a text that is itself joined from a sequence. -/
theorem joined_append_joined (sep : String) (first : List String) {second : List String}
    (h : second ≠ []) :
    joined sep (first ++ [joined sep second]) = joined sep (first ++ second) := by
  by_cases hfirst : first = []
  · rw [hfirst]
    rfl
  · rw [joined_append hfirst (List.cons_ne_nil _ []), joined_append hfirst h]
    rfl

/-- Texts in front of a joined sequence leave it as it is only if there are none. -/
theorem joined_append_eq_self_iff {sep : String} (hsep : sep ≠ "") {first second : List String}
    (hsecond : second ≠ []) : joined sep (first ++ second) = joined sep second ↔ first = [] := by
  constructor
  · intro h
    by_contra hfirst
    rw [joined_append hfirst hsecond] at h
    have hlength := congrArg String.length h
    simp only [String.length_append] at hlength
    exact hsep (String.length_eq_zero_iff.mp (by omega))
  · intro h
    rw [h, List.nil_append]

/-- Only the empty sequence of segments is joined to the empty text. -/
theorem joined_eq_empty_iff {segments : List String} (h : ∀ s ∈ segments, IsSegment s) :
    joined "." segments = "" ↔ segments = [] := by
  constructor
  · intro hempty
    cases segments with
    | nil => rfl
    | cons s rest =>
      obtain ⟨hs, -⟩ := List.forall_mem_cons.mp h
      cases rest with
      | nil => exact absurd hempty hs.ne_empty
      | cons t rest =>
        rw [joined_cons (List.cons_ne_nil t rest), String.append_assoc] at hempty
        have hlist := congrArg String.toList hempty
        simp at hlist
  · rintro rfl
    rfl

/-- Without an occurrence there is no last one. -/
theorem cutAtLast?_eq_none {sep : Char} {cs : List Char} (h : sep ∉ cs) :
    cutAtLast? sep cs = none := by
  induction cs with
  | nil => rfl
  | cons c cs ih =>
    obtain ⟨hc, hcs⟩ := not_or.mp (mt List.mem_cons.mpr h)
    rw [cutAtLast?, ih hcs]
    exact if_neg (Ne.symm hc)

/-- The last occurrence is the one after which there is none. -/
theorem cutAtLast?_append {sep : Char} (before : List Char) {after : List Char}
    (h : sep ∉ after) : cutAtLast? sep (before ++ sep :: after) = some (before, after) := by
  induction before with
  | nil => rw [List.nil_append, cutAtLast?, cutAtLast?_eq_none h, if_pos rfl]
  | cons c before ih => rw [List.cons_append, cutAtLast?, ih]

/-- Cutting a dotted name at its last dot takes the last segment off. -/
theorem qualifierAndName_joined (segments : List String) {s : String} (h : '.' ∉ s.toList) :
    qualifierAndName (joined "." (segments ++ [s])) = (joined "." segments, s) := by
  unfold qualifierAndName
  by_cases hsegments : segments = []
  · have hsingle : joined "." [s] = s := rfl
    rw [hsegments, List.nil_append, hsingle, cutAtLast?_eq_none h]
    rfl
  · have hchars : (joined "." (segments ++ [s])).toList =
        (joined "." segments).toList ++ '.' :: s.toList := by
      rw [joined_append hsegments (List.cons_ne_nil s [])]
      simp [joined]
    rw [hchars, cutAtLast?_append _ h]
    simp only [String.ofList_toList]

/-- Dotted names are equal exactly if their qualifiers and their last segments are. -/
theorem joined_append_singleton_inj {first second : List String} {s t : String}
    (hfirst : ∀ a ∈ first, IsSegment a) (hsecond : ∀ a ∈ second, IsSegment a)
    (hs : '.' ∉ s.toList) (ht : '.' ∉ t.toList) :
    joined "." (first ++ [s]) = joined "." (second ++ [t]) ↔
      joined "." first = joined "." second ∧ s = t := by
  constructor
  · intro h
    have hcut := congrArg qualifierAndName h
    rwa [qualifierAndName_joined first hs, qualifierAndName_joined second ht,
      Prod.mk.injEq] at hcut
  · rintro ⟨hjoined, rfl⟩
    by_cases hnil : first = []
    · rw [hnil] at hjoined ⊢
      rw [(joined_eq_empty_iff hsecond).mp hjoined.symm]
    · have hnil' : second ≠ [] := by
        rintro rfl
        exact hnil ((joined_eq_empty_iff hfirst).mp hjoined)
      rw [joined_append hnil (List.cons_ne_nil s []),
        joined_append hnil' (List.cons_ne_nil s []), hjoined]

/-- A text at the end of a dotted name belongs to the last segment. -/
theorem joined_append_ending (segments : List String) (s ending : String) :
    joined "." (segments ++ [s]) ++ ending = joined "." (segments ++ [s ++ ending]) := by
  by_cases hsegments : segments = []
  · rw [hsegments]
    rfl
  · rw [joined_append hsegments (List.cons_ne_nil _ []),
      joined_append hsegments (List.cons_ne_nil _ [])]
    simp only [joined, String.append_assoc]

/-- A name of several segments holds a dot, a single segment holds none. -/
theorem dot_mem_joined_iff {segments : List String} {s : String} (h : '.' ∉ s.toList) :
    '.' ∈ (joined "." (segments ++ [s])).toList ↔ segments ≠ [] := by
  by_cases hsegments : segments = []
  · rw [hsegments]
    simpa [joined] using h
  · rw [joined_append hsegments (List.cons_ne_nil s [])]
    simp [hsegments]

/-- A dotted name has a last segment. -/
theorem IsDotted.exists_last {name : String} (h : IsDotted name) :
    ∃ segments s, (∀ a ∈ segments, IsSegment a) ∧ IsSegment s ∧
      joined "." (segments ++ [s]) = name := by
  obtain ⟨all, hall, hsegments, rfl⟩ := h
  have hlast := List.dropLast_append_getLast hall
  refine ⟨all.dropLast, all.getLast hall, fun a ha => hsegments a (List.dropLast_subset _ ha),
    hsegments _ (List.getLast_mem hall), ?_⟩
  rw [hlast]

end StubGen.Text
