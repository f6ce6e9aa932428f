import StubGen.Proofs.Model.Resolution

/-!
# Which type references are special types

A type reference stands for a special type exactly if its name is the keyword of the type, the
full name of the type with or without a root mark, or the simple name at a place that sees the
namespace of the runtime. Under a trailing `?` only the reference types are left.

The search goes through a list of namespaces and ends at the first hit. That neither the order
of this list nor repetitions in it matter follows, as only one namespace counts. Nothing is
assumed about the segments of the imported namespaces. The one text that is left out is the
empty name, which the search takes for the namespaces themselves.
-/

namespace StubGen

open Text

namespace TypeSyntax

/-- The name in the text of a type reference: without blanks and without one trailing `?`. -/
def nameIn (text : String) : String := (beforeEnd? "?" (compact text)).getD (compact text)

/-- Whether the text of a type reference has a trailing `?`. -/
def isNullable (text : String) : Bool := (beforeEnd? "?" (compact text)).isSome

end TypeSyntax

namespace SpecialType

/-- The keyword of a special type. -/
def keyword : SpecialType → String
  | void => "void"
  | string => "string"
  | boolean => "bool"
  | int32 => "int"
  | int64 => "long"
  | double => "double"
  | char => "char"
  | object => "object"

variable {s : SpecialType} {type : KeywordType}

/-- A keyword type is the special type with its keyword. -/
theorem ofKeyword_eq_iff : ofKeyword type = s ↔ type.keyword = s.keyword := by
  cases type <;> cases s <;> decide

/-- The keyword of a special type is read as a keyword. -/
theorem ofKeyword?_keyword_ne_none (s : SpecialType) :
    KeywordType.ofKeyword? s.keyword ≠ none := by
  cases s <;> decide

/-- The names of a special type in the runtime are no keywords. -/
theorem ofKeyword?_names (s : SpecialType) :
    KeywordType.ofKeyword? s.simpleName = none ∧ KeywordType.ofKeyword? s.metadataName = none ∧
      KeywordType.ofKeyword? (rootMark ++ s.metadataName) = none := by
  cases s <;> decide +kernel

/-- The names of a special type in the runtime are not rooted. -/
theorem not_isRooted_names (s : SpecialType) :
    ¬ IsRooted s.simpleName ∧ ¬ IsRooted s.metadataName := by
  cases s <;> decide +kernel

end SpecialType

namespace Model

variable {m : Model} {i : Fin m.tree.size} {name : String} {s : SpecialType}

/-- The namespaces whose types can be named at a node by their simple names. -/
inductive Sees (m : Model) (i : Fin m.tree.size) (n : Namespace) : Prop
  /-- The namespace of the node and those around it. -/
  | enclosing (hscope : n.segments <+: (m.enclosingNamespace i).segments)
  /-- The target of a directive directly below a node above. -/
  | imported {above directive : Fin m.tree.size} (habove : above ∈ m.tree.ancestors i)
      (hparent : m.tree.parent directive = some above)
      (hkind : (m.tree.declaration directive).kind = .usingDirective)
      (htarget : Namespace.ofDotted (m.tree.declaration directive).name = n)
  /-- What the whole compilation imports. -/
  | everywhere (hglobal : n ∈ m.globalUsings)

/-- A name is looked up in the namespaces that its place sees. -/
theorem mem_lookupScopes_iff_sees {n : Namespace} : n ∈ m.lookupScopes i true ↔ m.Sees i n := by
  have husings : n ∈ m.usings i ↔ n ∈ m.localUsings i ∨ n ∈ m.globalUsings :=
    Compilation.mem_addNew
  rw [mem_lookupScopes, husings, mem_localUsings]
  constructor
  · intro h
    rcases h with hscope | ⟨-, ⟨above, habove, directive, hparent, hkind, htarget⟩ | hglobal⟩
    · exact .enclosing hscope
    · exact .imported habove hparent hkind htarget
    · exact .everywhere hglobal
  · intro h
    cases h with
    | enclosing hscope => exact Or.inl hscope
    | imported habove hparent hkind htarget =>
      exact Or.inr ⟨rfl, Or.inl ⟨_, habove, _, hparent, hkind, htarget⟩⟩
    | everywhere hglobal => exact Or.inr ⟨rfl, Or.inr hglobal⟩

/-- The ways to write a special type at a node. -/
inductive Writes (m : Model) (i : Fin m.tree.size) (s : SpecialType) : String → Prop
  | keyword : Writes m i s s.keyword
  | full : Writes m i s ("System." ++ s.simpleName)
  | rooted : Writes m i s ("global::System." ++ s.simpleName)
  | simple (hsees : m.Sees i ⟨["System"]⟩) : Writes m i s s.simpleName

/-- A special type is written in four ways. -/
theorem writes_iff : m.Writes i s name ↔ name = s.keyword ∨ name = s.metadataName ∨
    name = rootMark ++ s.metadataName ∨
      name = s.simpleName ∧ Namespace.system ∈ m.lookupScopes i true := by
  have hrooted : "global::System." ++ s.simpleName = rootMark ++ s.metadataName := by
    cases s <;> rfl
  rw [mem_lookupScopes_iff_sees]
  constructor
  · intro h
    cases h with
    | keyword => exact Or.inl rfl
    | full => exact Or.inr (Or.inl rfl)
    | rooted => exact Or.inr (Or.inr (Or.inl hrooted))
    | simple hsees => exact Or.inr (Or.inr (Or.inr ⟨rfl, hsees⟩))
  · intro h
    rcases h with rfl | rfl | rfl | ⟨rfl, hsees⟩
    · exact .keyword
    · exact .full
    · exact hrooted ▸ .rooted
    · exact .simple hsees

/-- A name that is no keyword resolves to the special types that it writes. -/
theorem resolveName?_iff_writes (hkeyword : KeywordType.ofKeyword? name = none)
    (hname : name ≠ "") : m.resolveName? i name = some s ↔ m.Writes i s name := by
  have hnotKeyword : name ≠ s.keyword := by
    intro h
    exact s.ofKeyword?_keyword_ne_none (h ▸ hkeyword)
  rw [writes_iff]
  by_cases hrooted : IsRooted name
  · obtain ⟨rest, rfl⟩ := hrooted
    have hsimple : rootMark ++ rest ≠ s.simpleName := fun h =>
      s.not_isRooted_names.1 ⟨rest, h⟩
    have hfull : rootMark ++ rest ≠ s.metadataName := fun h =>
      s.not_isRooted_names.2 ⟨rest, h⟩
    rw [resolveName?_rooted]
    simp only [hnotKeyword, hsimple, hfull, false_and, false_or, or_false,
      String.append_right_inj]
  · have hmark : name ≠ rootMark ++ s.metadataName := fun h => hrooted ⟨_, h.symm⟩
    rw [resolveName?_eq_some hrooted hname]
    simp only [hnotKeyword, hmark, false_or]

/-- The text of a type reference, without a look at a trailing `?`, resolves to the special
types that its name writes. -/
theorem resolveSpecial?_parse {text : String} (hname : compact text ≠ "") :
    m.resolveSpecial? i (TypeSyntax.parse text) = some s ↔ m.Writes i s (compact text) := by
  unfold TypeSyntax.parse
  cases hkeyword : KeywordType.ofKeyword? (compact text) with
  | none => exact resolveName?_iff_writes hkeyword hname
  | some type =>
    have hfound := KeywordType.ofKeyword?_eq_some.mp hkeyword
    obtain ⟨hsimple, hfull, hrooted⟩ := s.ofKeyword?_names
    have hother {written : String} (hnone : KeywordType.ofKeyword? written = none) :
        type.keyword ≠ written := by
      intro h
      rw [← hfound, h, hnone] at hkeyword
      contradiction
    rw [writes_iff, ← hfound, resolveSpecial?, Option.some.injEq, SpecialType.ofKeyword_eq_iff]
    simp only [hother hsimple, hother hfull, hother hrooted, false_and, or_false]

/-- A type reference resolves to a special type exactly if its name is one of the ways to write
that type at its place: its keyword, its full name with or without a root mark, or its simple
name where the namespace of the runtime is seen. With a trailing `?` the type has to be a
reference type as well. So the result depends only on which namespaces are searched, not on
their order or on how often each of them is. -/
theorem resolve_special_iff_writes (m : Model) (i : Fin m.tree.size) {text : String}
    (hname : TypeSyntax.nameIn text ≠ "") :
    (∀ s, (m.resolve i (TypeSyntax.parse text)).special = some s ↔
      m.Writes i s (TypeSyntax.nameIn text) ∧
        (TypeSyntax.isNullable text = true → s = .string ∨ s = .object)) ∧
      ∀ (other : Model) (j : Fin other.tree.size),
        (∀ n, n ∈ other.lookupScopes j true ↔ n ∈ m.lookupScopes i true) →
          (other.resolve j (TypeSyntax.parse text)).special =
            (m.resolve i (TypeSyntax.parse text)).special := by
  have hexact (m : Model) (i : Fin m.tree.size) (s : SpecialType) :
      (m.resolve i (TypeSyntax.parse text)).special = some s ↔
        m.Writes i s (TypeSyntax.nameIn text) ∧
          (TypeSyntax.isNullable text = true → s = .string ∨ s = .object) := by
    have hreference : s.isReference = true ↔ s = .string ∨ s = .object := by
      simp [SpecialType.isReference]
    unfold TypeSyntax.nameIn TypeSyntax.isNullable
    unfold TypeSyntax.nameIn at hname
    rw [resolve, TypeSyntax.withoutNullable?_parse]
    cases hmark : beforeEnd? "?" (compact text) with
    | none =>
      rw [hmark, Option.getD_none] at hname
      simpa using resolveSpecial?_parse hname
    | some rest =>
      rw [hmark, Option.getD_some] at hname
      have hrest : compact rest = rest := compact_of_beforeEnd?_compact hmark
      rw [← hrest] at hname
      simp only [Option.map_some, Option.filter_eq_some_iff, resolveSpecial?_parse hname, hrest,
        hreference, Option.getD_some, Option.isSome_some, forall_const]
  refine ⟨hexact m i, fun other j hscopes => Option.ext fun s => ?_⟩
  rw [hexact, hexact, writes_iff, writes_iff, hscopes]

/-- A file that has a class below a directive that imports the namespace of the runtime. -/
def systemFile : Tree :=
  Tree.ofForest ⟨0⟩ {} (.cons (.ofUsing "System" false {}) .nil
    (.cons { kind := .typeDeclaration .classType, name := "Program" } .nil .nil))

/-- With the directive the simple name is enough, under a mark and with blanks in it. -/
theorem resolve_special_of_using_directive :
    TypeSyntax.nameIn "S tring ?" ≠ "" ∧
      ((⟨systemFile, []⟩ : Model).resolve ⟨2, by decide⟩ (TypeSyntax.parse "S tring ?")).special =
        some .string := by
  have hname : TypeSyntax.nameIn "S tring ?" = "String" := by decide +kernel
  have hne : TypeSyntax.nameIn "S tring ?" ≠ "" := by
    rw [hname]
    decide
  have hsees : (⟨systemFile, []⟩ : Model).Sees ⟨2, by decide⟩ ⟨["System"]⟩ :=
    mem_lookupScopes_iff_sees.mp (by decide +kernel)
  have hwrites : (⟨systemFile, []⟩ : Model).Writes ⟨2, by decide⟩ .string
      (TypeSyntax.nameIn "S tring ?") := by
    rw [hname]
    exact .simple hsees
  obtain ⟨hexact, -⟩ := resolve_special_iff_writes ⟨systemFile, []⟩ ⟨2, by decide⟩ hne
  exact ⟨hne, (hexact .string).mpr ⟨hwrites, fun _ => Or.inl rfl⟩⟩

end Model

end StubGen
