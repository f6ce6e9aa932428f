import StubGen.Proofs.Model.Binding

/-!
# What type references resolve to

A name stands for a special type exactly if it is the full name of the type, or its simple
name at a place that sees the namespace of the runtime. No two namespaces make different
special types of one name, so the order in which they are searched does not matter, and a
further imported namespace takes nothing back: what an attribute binds to and what a type
reference resolves to stay as they are.

A type reference that says nothing is left out, an empty text or a bare `?`. For an empty
name the search comes across the dotted names of the namespaces themselves.
-/

namespace StubGen

open Text

/-- A keyword type is known by its keyword. -/
theorem KeywordType.ofKeyword?_eq_some {text : String} {type : KeywordType} :
    ofKeyword? text = some type ↔ type.keyword = text := by
  constructor
  · intro h
    have hfound := List.find?_some h
    exact beq_iff_eq.mp hfound
  · rintro rfl
    cases type <;> decide

/-- What comes before the ending of a text without blanks has none either. -/
theorem compact_of_beforeEnd?_compact {ending text rest : String}
    (h : beforeEnd? ending (compact text) = some rest) : compact rest = rest := by
  refine compact_eq_self fun c hc => not_isBlank_of_mem_compact (s := text) ?_
  rw [← beforeEnd?_eq_some.mp h, String.toList_append]
  exact List.mem_append_left _ hc

namespace TypeSyntax

/-- A type reference that says something, with a trailing `?` or without. -/
structure IsWritten (type : TypeSyntax) : Prop where
  ne_empty : type ≠ .named ""
  ne_mark : type.withoutNullable? ≠ some (.named "")

instance (type : TypeSyntax) : Decidable type.IsWritten :=
  decidable_of_iff (type ≠ .named "" ∧ type.withoutNullable? ≠ some (.named ""))
    ⟨fun h => ⟨h.1, h.2⟩, fun h => ⟨h.ne_empty, h.ne_mark⟩⟩

/-- A keyword has no trailing `?`, so the mark can be looked for in the text. -/
theorem withoutNullable?_parse (text : String) :
    (parse text).withoutNullable? = (beforeEnd? "?" (compact text)).map parse := by
  unfold parse
  cases hkeyword : KeywordType.ofKeyword? (compact text) with
  | none => rfl
  | some type =>
    have hmark : beforeEnd? "?" type.keyword = none := by cases type <;> decide
    rw [← KeywordType.ofKeyword?_eq_some.mp hkeyword, hmark]
    rfl

/-- A text is read as an empty name exactly if it holds nothing but blanks. -/
theorem parse_eq_named_empty {text : String} : parse text = .named "" ↔ compact text = "" := by
  unfold parse
  cases hkeyword : KeywordType.ofKeyword? (compact text) with
  | none => simp
  | some type =>
    have hne : type.keyword ≠ "" := by cases type <;> decide
    simp [← KeywordType.ofKeyword?_eq_some.mp hkeyword, hne]

/-- A type that is read off a text says something unless the text without its blanks is empty
or a bare `?`. -/
theorem isWritten_parse {text : String} :
    (parse text).IsWritten ↔ compact text ≠ "" ∧ compact text ≠ "?" := by
  have hmark : (parse text).withoutNullable? = some (.named "") ↔ compact text = "?" := by
    rw [withoutNullable?_parse, Option.map_eq_some_iff]
    constructor
    · rintro ⟨rest, hrest, hempty⟩
      rw [parse_eq_named_empty, compact_of_beforeEnd?_compact hrest] at hempty
      rw [← beforeEnd?_eq_some.mp hrest, hempty]
      rfl
    · intro h
      exact ⟨"", beforeEnd?_eq_some.mpr h.symm, by decide⟩
  exact ⟨fun h => ⟨mt parse_eq_named_empty.mpr h.ne_empty, mt hmark.mpr h.ne_mark⟩,
    fun h => ⟨mt parse_eq_named_empty.mp h.1, mt hmark.mp h.2⟩⟩

end TypeSyntax

namespace SpecialType

variable {s s' : SpecialType} {name : String}

/-- A special type is known by its full name. -/
theorem ofMetadataName?_eq_some : ofMetadataName? name = some s ↔ name = s.metadataName := by
  constructor
  · intro h
    have hfound := List.find?_some h
    exact (beq_iff_eq.mp hfound).symm
  · rintro rfl
    cases s <;> decide +kernel

/-- The full name puts the simple name into the namespace of the runtime. -/
theorem metadataName_eq_joined (s : SpecialType) :
    s.metadataName = joined "." (["System"] ++ [s.simpleName]) := by
  cases s <;> rfl

/-- The simple name of a special type is a single segment. -/
theorem simpleName_isSegment (s : SpecialType) : IsSegment s.simpleName := by
  cases s <;> decide

/-- A name, in full or not, stands for one special type at most. -/
theorem eq_of_names (h : name = s.metadataName ∨ name = s.simpleName)
    (h' : name = s'.metadataName ∨ name = s'.simpleName) : s = s' := by
  have hfull (h : s.metadataName = s'.metadataName) : s = s' :=
    Option.some.inj ((ofMetadataName?_eq_some.mpr rfl).symm.trans (ofMetadataName?_eq_some.mpr h))
  have hdot (s : SpecialType) : '.' ∈ s.metadataName.toList := by
    rw [metadataName_eq_joined, dot_mem_joined_iff s.simpleName_isSegment.no_dot]
    exact List.cons_ne_nil _ _
  rcases h with rfl | rfl <;> rcases h' with h' | h'
  · exact hfull h'
  · exact absurd (h' ▸ hdot s) s'.simpleName_isSegment.no_dot
  · exact absurd (h' ▸ hdot s') s.simpleName_isSegment.no_dot
  · exact hfull (congrArg ("System." ++ ·) h')

end SpecialType

namespace Namespace

/-- The namespace of the runtime. -/
def system : Namespace := ⟨["System"]⟩

/-- Only one namespace has the dotted name of the runtime's, as that name has no dot. -/
theorem minimalDisplay_eq_system {scope : Namespace} :
    scope.minimalDisplay = "System" ↔ scope = system := by
  constructor
  · intro h
    apply eq_of_segments_eq
    unfold minimalDisplay at h
    cases hsegments : scope.segments with
    | nil =>
      rw [hsegments] at h
      exact absurd h (by decide)
    | cons first rest =>
      cases rest with
      | nil =>
        rw [hsegments] at h
        exact congrArg (fun s => [s]) h
      | cons second rest =>
        rw [hsegments, joined_cons (List.cons_ne_nil second rest)] at h
        have hdot : '.' ∈ "System".toList := by
          rw [← h, String.toList_append, String.toList_append]
          simp
        exact absurd hdot (by decide)
  · intro h
    rw [h]
    rfl

/-- A name that is not empty is qualified to the full name of a special type in two ways: in
full in the global namespace, and by its simple name in the namespace of the runtime. -/
theorem qualify_eq_metadataName {scope : Namespace} {name : String} (hname : name ≠ "")
    {s : SpecialType} :
    scope.qualify name = s.metadataName ↔
      scope = globalNamespace ∧ name = s.metadataName ∨ scope = system ∧ name = s.simpleName := by
  by_cases hglobal : scope = globalNamespace
  · rw [hglobal]
    simp [qualify, isGlobal, globalNamespace, system]
  · have hne : scope.segments ≠ [] := fun h => hglobal (eq_of_segments_eq h)
    have hqualified : scope.qualify name = scope.minimalDisplay ++ "." ++ name := by
      rw [qualify, if_neg (by simpa [isGlobal] using hne), if_neg hname]
    have hfull : s.metadataName = "System" ++ "." ++ s.simpleName := s.metadataName_eq_joined
    -- A full name has a single dot, so it is cut in the same place on both sides.
    have hcut : scope.minimalDisplay ++ "." ++ name = "System" ++ "." ++ s.simpleName ↔
        scope.minimalDisplay = "System" ∧ name = s.simpleName := by
      rw [eq_comm, append_dot_inj (by decide) s.simpleName_isSegment.no_dot]
      exact and_congr eq_comm eq_comm
    rw [hqualified, hfull, hcut, minimalDisplay_eq_system]
    simp only [hglobal, false_and, false_or]

end Namespace

namespace Model

variable {m : Model} {i : Fin m.tree.size} {name : String} {s : SpecialType}

/-- A rooted name resolves to the special type of that full name. -/
theorem resolveName?_rooted :
    m.resolveName? i (rootMark ++ name) = some s ↔ name = s.metadataName := by
  unfold resolveName?
  rw [afterStart?_eq_some.mpr rfl]
  exact SpecialType.ofMetadataName?_eq_some

/-- Any other name that is not empty resolves to the special type of that full name, and to the
special type of that simple name where the namespace of the runtime is searched. -/
theorem resolveName?_eq_some (hunrooted : ¬ IsRooted name) (hname : name ≠ "") :
    m.resolveName? i name = some s ↔
      name = s.metadataName ∨
        name = s.simpleName ∧ Namespace.system ∈ m.lookupScopes i true := by
  let candidates := (m.lookupScopes i true).map (·.qualify name) ++ [name]
  have hsearch : m.resolveName? i name = candidates.findSome? SpecialType.ofMetadataName? := by
    unfold resolveName?
    rw [afterStart?_eq_none_of_not_isRooted hunrooted]
  have hcandidate (s : SpecialType) : s.metadataName ∈ candidates ↔
      name = s.metadataName ∨
        name = s.simpleName ∧ Namespace.system ∈ m.lookupScopes i true := by
    simp only [candidates, List.mem_append, List.mem_map, List.mem_singleton]
    constructor
    · rintro (⟨scope, hscope, hfull⟩ | hfull)
      · rcases (Namespace.qualify_eq_metadataName hname).mp hfull with
          ⟨-, hfull⟩ | ⟨rfl, hsimple⟩
        · exact Or.inl hfull
        · exact Or.inr ⟨hsimple, hscope⟩
      · exact Or.inl hfull.symm
    · rintro (hfull | ⟨hsimple, hscope⟩)
      · exact Or.inr hfull.symm
      · exact Or.inl ⟨_, hscope,
          (Namespace.qualify_eq_metadataName hname).mpr (Or.inr ⟨rfl, hsimple⟩)⟩
  rw [hsearch, ← hcandidate]
  constructor
  · intro h
    obtain ⟨full, hfull, hs⟩ := List.exists_of_findSome?_eq_some h
    rwa [SpecialType.ofMetadataName?_eq_some.mp hs] at hfull
  · intro h
    have hfound : (candidates.findSome? SpecialType.ofMetadataName?).isSome :=
      List.findSome?_isSome_iff.mpr
        ⟨_, h, Option.isSome_of_eq_some (SpecialType.ofMetadataName?_eq_some.mpr rfl)⟩
    obtain ⟨s', hs'⟩ := Option.isSome_iff_exists.mp hfound
    obtain ⟨full, hfull, hs⟩ := List.exists_of_findSome?_eq_some hs'
    rw [SpecialType.ofMetadataName?_eq_some.mp hs, hcandidate] at hfull
    rw [hs', SpecialType.eq_of_names (hfull.imp_right And.left)
      (((hcandidate s).mp h).imp_right And.left)]

end Model

namespace Compilation

variable {c d : Compilation} {t : Tree} {i : Fin t.size}

/-- With more global usings a name is looked up in more namespaces. -/
theorem lookupScopes_subset (husings : c.globalUsings ⊆ d.globalUsings) (withUsings : Bool) :
    (c.model t).lookupScopes i withUsings ⊆ (d.model t).lookupScopes i withUsings := by
  intro scope hscope
  refine Model.mem_lookupScopes.mpr ((Model.mem_lookupScopes.mp hscope).imp_right ?_)
  rintro ⟨hwith, hused⟩
  exact ⟨hwith, mem_addNew.mpr ((mem_addNew.mp hused).imp_right (husings ·))⟩

/-- With more global usings an attribute still binds to what it bound to. -/
theorem attributeBinds_mono (husings : c.globalUsings ⊆ d.globalUsings)
    {written metadata : String} (h : (c.model t).attributeBinds i written metadata = true) :
    (d.model t).attributeBinds i written metadata = true := by
  unfold Model.attributeBinds at h ⊢
  rw [Bool.and_eq_true] at h ⊢
  refine ⟨h.1, ?_⟩
  cases hafter : afterStart? rootMark written with
  | some rooted => simpa only [hafter] using h.2
  | none =>
    simp only [hafter, List.any_eq_true] at h ⊢
    obtain ⟨-, scope, hscope, htarget⟩ := h
    exact ⟨scope, lookupScopes_subset husings _ hscope, htarget⟩

/-- With more global usings a name still resolves to what it resolved to. -/
theorem resolveName?_mono (husings : c.globalUsings ⊆ d.globalUsings) {name : String}
    (hname : name ≠ "") {s : SpecialType} (h : (c.model t).resolveName? i name = some s) :
    (d.model t).resolveName? i name = some s := by
  by_cases hrooted : IsRooted name
  · obtain ⟨rest, rfl⟩ := hrooted
    exact Model.resolveName?_rooted.mpr (Model.resolveName?_rooted.mp h)
  · have hfound := (Model.resolveName?_eq_some hrooted hname).mp h
    refine (Model.resolveName?_eq_some hrooted hname).mpr ?_
    exact hfound.imp_right fun ⟨hsimple, hscope⟩ =>
      ⟨hsimple, lookupScopes_subset husings true hscope⟩

/-- With more global usings a type reference still resolves to the special type that it
resolved to. -/
theorem resolve_special_mono (husings : c.globalUsings ⊆ d.globalUsings) {type : TypeSyntax}
    (htype : type.IsWritten) {s : SpecialType}
    (h : ((c.model t).resolve i type).special = some s) :
    ((d.model t).resolve i type).special = some s := by
  have hspecial {plain : TypeSyntax} (hplain : plain ≠ .named "")
      (h : (c.model t).resolveSpecial? i plain = some s) :
      (d.model t).resolveSpecial? i plain = some s := by
    cases plain with
    | keyword type => exact h
    | named name => exact resolveName?_mono husings (fun hempty => hplain (hempty ▸ rfl)) h
  unfold Model.resolve at h ⊢
  cases hmark : type.withoutNullable? with
  | none =>
    simp only [hmark] at h ⊢
    exact hspecial htype.ne_empty h
  | some underlying =>
    simp only [hmark, Option.filter_eq_some_iff] at h ⊢
    exact ⟨hspecial (fun hempty => htype.ne_mark (hempty ▸ hmark)) h.1, h.2⟩

end Compilation

end StubGen
