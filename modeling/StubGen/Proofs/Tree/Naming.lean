import StubGen.Proofs.Concrete.Respacing
import StubGen.Proofs.Model.Titles
import StubGen.Proofs.Tree.Lowering

/-!
# Names do not depend on spacing

The names in a declaration tree are those that the tokens of the concrete tree spell. So a file
that is written with other spacing between its tokens has the same titles, and binds the same.

Comments are no spacing. One that stands between the tokens of a name stays in the name, so that
the name is another one.
-/

namespace StubGen

namespace Concrete

variable {source source' : String} {c c' : Concrete} {f f' : Forest ConcreteNode}

/-- The names are made up of tokens in the first tree of a sequence, below it and in the rest. -/
theorem namesTokenized_cons {node : ConcreteNode} {below rest : Forest ConcreteNode} :
    NamesTokenized source (.cons node below rest) ↔
      (∀ e ∈ (⟨node, below⟩ : Concrete).nameNode?, e.IsTokenized source) ∧
        NamesTokenized source below ∧ NamesTokenized source rest :=
  Forest.forall_mem_subtrees_cons

/-- Whether a declaration is made, of which kind and whether it imports for every file does not
depend on spacing. -/
theorem RespacedTo.map_kind_declared? (h : c.RespacedTo source source' c') :
    (c.declared? source).map (fun d => (d.kind, d.title.isGlobal)) =
      (c'.declared? source').map fun d => (d.kind, d.title.isGlobal) := by
  unfold declared?
  rw [← h.node.role]
  cases c.node.role with
  | fileScopedNamespace | namespaceBlock | methodDeclaration => rfl
  | typeDeclaration => simp [typeDeclaration, Declaration.title, h.typeForm]
  | otherDeclaration => simp [otherDeclaration, Declaration.title, h.node.kind]
  | usingDirective =>
    have hname : (c.field? "name").isSome = (c'.field? "name").isSome :=
      isSome_of_rel (h.find? fun _ _ hab => hab.fills "name")
    simp only [usingDeclaration?, hname, h.hasKeyword]
    split
    · rfl
    · rw [Option.map_map, Option.map_map]
      refine map_eq_of_rel h.target? fun _ _ _ => ?_
      simp only [Function.comp_apply, Declaration.title, Declaration.ofUsing]
  | preprocessor | ignored => rfl

/-- Declarations have the same titles whatever the spacing. -/
theorem RespacedTo.map_title_declared? (h : c.RespacedTo source source' c')
    (hc : (∀ e ∈ c.nameNode?, e.IsTokenized source) ∧ NamesTokenized source c.below)
    (hc' : (∀ e ∈ c'.nameNode?, e.IsTokenized source') ∧ NamesTokenized source' c'.below) :
    (c.declared? source).map Declaration.title =
      (c'.declared? source').map Declaration.title := by
  have hkind := h.map_kind_declared?
  cases hd : c.declared? source with
  | none =>
    rw [hd, Option.map_none, eq_comm, Option.map_eq_none_iff] at hkind
    rw [hkind]
  | some d =>
    rw [hd, Option.map_some, eq_comm, Option.map_eq_some_iff] at hkind
    obtain ⟨d', hd', hsame⟩ := hkind
    obtain ⟨hkind, hglobal⟩ := Prod.mk.inj hsame
    have hname : d.name = d'.name := by
      rw [name_of_declared? hc.1 hd, name_of_declared? hc'.1 hd', h.spelledName]
    have hattributes : d.attributes.map (·.name) = d'.attributes.map (·.name) := by
      rw [attributes_of_declared? hc.2 hd, attributes_of_declared? hc'.2 hd']
      exact map_eq_of_forall₂ h.appliedAttributes fun _ _ hab => hab.spelledName
    rw [hd', Option.map_some, Option.map_some, Option.some.injEq]
    have heta (e : Declaration) : e.title =
        ⟨e.kind, e.name, e.attributes.map (·.name), e.title.isGlobal⟩ := rfl
    rw [heta d, heta d', hkind, hname, hattributes, hglobal]

/-- The titles of the members found in two sequences are the same. -/
def SameTitles (m m' : Members) : Prop :=
  m.own.map Declaration.title = m'.own.map Declaration.title ∧
    m.adopting.map Declaration.title = m'.adopting.map Declaration.title

/-- So are those of all of them. -/
theorem SameTitles.all {m m' : Members} (h : SameTitles m m') :
    m.all.map Declaration.title = m'.all.map Declaration.title := by
  rw [Members.all, Members.all, Forest.map_append, Forest.map_append, h.1, h.2]

/-- What stands below a declaration has the same titles if that is so for what is opened. -/
theorem RespacedTo.map_title_openedMembers (h : c.RespacedTo source source' c')
    (hopened : ∀ b b', c.opened? = some b → c'.opened? = some b' →
      b.RespacedTo source source' b' →
        SameTitles (members source b.below) (members source' b'.below)) :
    (c.openedMembers source).map Declaration.title =
      (c'.openedMembers source').map Declaration.title := by
  have hrel := h.opened?
  unfold openedMembers
  generalize hb : c.opened? = opened at hrel ⊢
  generalize hb' : c'.opened? = opened' at hrel ⊢
  cases hrel with
  | none => rw [Option.map_none, Option.map_none]
  | some hbody =>
    rw [Option.map_some, Option.map_some, Option.getD_some, Option.getD_some]
    exact (hopened _ _ hb hb' hbody).all

/-- What a member adds has the same titles if its declaration has and what stands below that. -/
theorem map_title_contribution
    (hdeclared : (c.declared? source).map Declaration.title =
      (c'.declared? source').map Declaration.title)
    (hopened : (c.openedMembers source).map Declaration.title =
      (c'.openedMembers source').map Declaration.title) :
    (c.contribution source).map Declaration.title =
      (c'.contribution source').map Declaration.title := by
  unfold contribution
  cases hd : c.declared? source with
  | none =>
    rw [hd, Option.map_none, eq_comm, Option.map_eq_none_iff] at hdeclared
    rw [hdeclared]
    exact hopened
  | some d =>
    rw [hd, Option.map_some, eq_comm, Option.map_eq_some_iff] at hdeclared
    obtain ⟨d', hd', htitle⟩ := hdeclared
    simp only [hd', Forest.map, htitle, hopened]

/-- What is opened is made up of tokens as far as names go. -/
theorem NamesTokenized.opened? (h : NamesTokenized source c.below) {b : Concrete}
    (hb : c.opened? = some b) : NamesTokenized source b.below := by
  rcases opened?_eq_some hb with rfl | hchild
  · exact h
  · exact (h.child hchild).2

/-- The members found in a sequence have the same titles whatever the spacing. -/
theorem Respaced.sameTitles (h : Respaced source source' f f')
    (hf : NamesTokenized source f) (hf' : NamesTokenized source' f') :
    SameTitles (members source f) (members source' f') := by
  induction f using Forest.two_level_induction generalizing f' with
  | nil =>
    cases h
    exact ⟨rfl, rfl⟩
  | cons node below rest ihBelow ihFurther ihRest =>
    cases f' with
    | nil => cases h
    | cons node' below' rest' =>
      obtain ⟨hnode, htoken, hbelow, hrest⟩ := respaced_cons.mp h
      obtain ⟨hname, hnames, hnamesRest⟩ := namesTokenized_cons.mp hf
      obtain ⟨hname', hnames', hnamesRest'⟩ := namesTokenized_cons.mp hf'
      have hc : RespacedTo source source' ⟨node, below⟩ ⟨node', below'⟩ :=
        ⟨hnode, htoken, hbelow⟩
      obtain ⟨hown, hadopting⟩ := ihRest hrest hnamesRest hnamesRest'
      have hdeclared := hc.map_title_declared? ⟨hname, hnames⟩ ⟨hname', hnames'⟩
      have hopened := hc.map_title_openedMembers fun b b' hb hb' hbody => by
        have hfound : NamesTokenized source b.below := NamesTokenized.opened? hnames hb
        have hfound' : NamesTokenized source' b'.below := NamesTokenized.opened? hnames' hb'
        -- What is opened is the node itself or one of its children.
        rcases opened?_eq_some hb with rfl | hchild
        · exact ihBelow hbody.below hfound hfound'
        · obtain ⟨t, ht, rfl⟩ := List.mem_map.mp hchild
          exact ihFurther t ht hbody.below hfound hfound'
      by_cases hrole : node.role = .fileScopedNamespace
      · have hrole' : node'.role = .fileScopedNamespace := hnode.role ▸ hrole
        have htitle : ((⟨node, below⟩ : Concrete).namespaceDeclaration source).title =
            ((⟨node', below'⟩ : Concrete).namespaceDeclaration source').title := by
          simpa [declared?, hrole, hrole'] using hdeclared
        rw [members_cons_of_fileScoped hrole, members_cons_of_fileScoped hrole']
        refine ⟨rfl, ?_⟩
        simp only [Forest.map, Forest.map_append, htitle, hopened, hown, hadopting]
      · have hrole' : node'.role ≠ .fileScopedNamespace := hnode.role ▸ hrole
        have hcontribution := map_title_contribution hdeclared hopened
        rw [members_cons_of_not_fileScoped hrole, members_cons_of_not_fileScoped hrole']
        refine ⟨?_, hadopting⟩
        simp only [Members.after, Forest.map_append, hcontribution, hown]

end Concrete

namespace Tree

open Concrete

/-- The names in the declaration tree of a file are spelled by the tokens of the nodes they are
read from, those of attributes too. A name goes without its comments exactly if there is none among
its tokens. And spacing makes no difference: a file with the same tokens in the same places of its
concrete tree has the same titles and binds the same attributes and types. -/
theorem names_spelled_by_tokens (file : FileId) (source : String) (c : Concrete)
    (hc : NamesTokenized source c.below) :
    (∀ (i : Fin (ofConcrete file source c).size) (k : Nat), i.val = k + 1 →
      ∃ kept position d, Lists c.Keeps kept ∧ kept[k]? = some (position, d) ∧
        ((ofConcrete file source c).declaration i).name = d.spelledName source ∧
        ((ofConcrete file source c).declaration i).attributes.map (·.name) =
          d.appliedAttributes.map (·.spelledName source)) ∧
    (∀ t ∈ c.below.subtrees,
      (⟨t.1, t.2⟩ : Concrete).plainName source = (⟨t.1, t.2⟩ : Concrete).spelledName source ↔
        ∀ token ∈ (⟨t.1, t.2⟩ : Concrete).nameTokens, token.isComment = false) ∧
    ∀ (file' : FileId) (source' : String) (c' : Concrete), NamesTokenized source' c'.below →
      Respaced source source' c.below c'.below →
      (ofConcrete file source c).BindsAlike (ofConcrete file' source' c') := by
  refine ⟨?_, fun t ht => plainName_eq_spelledName_iff (hc t ht), ?_⟩
  · intro i k hi
    obtain ⟨kept, position, d, hkept, hentry, hdeclared⟩ :=
      exists_keeps_of_declaration file source c hi
    have hkeeps := (hkept.mem_iff position d).mp (List.mem_of_getElem? hentry)
    obtain ⟨hname, hbelow⟩ := hc.at? hkeeps.1.ne_nil hkeeps.1.at?_eq
    exact ⟨kept, position, d, hkept, hentry, name_of_declared? hname hdeclared,
      attributes_of_declared? hbelow hdeclared⟩
  · intro file' source' c' hc' hrespaced
    exact bindsAlike_of_titles
      (titles_ofForest (hrespaced.sameTitles hc hc').all)

/-- A using directive for a namespace of two segments, from the start of the text on. The dot
starts at `dot` and the second segment at `second`, and there may be more between them. -/
def dottedUsing (dot : Nat) (between : List Concrete) (second : Nat) : Concrete :=
  branch "using_directive" 0 (second + 5)
    [leaf "using" false 0 5,
      branch "qualified_name" 6 (second + 4)
        (leaf "identifier" true 6 12 "qualifier" :: leaf "." false dot (dot + 1) ::
          (between ++ [leaf "identifier" true second (second + 4) "name"])),
      leaf ";" false (second + 4) (second + 5)]

/-- A file that consists of such a directive. -/
def dottedUsingFile (dot : Nat) (between : List Concrete) (second : Nat) : Concrete :=
  branch "compilation_unit" 0 (second + 5) [dottedUsing dot between second]

/-- With spaces around the dot or without, the same namespace is imported. -/
theorem names_spelled_by_tokens_spacedUsing :
    (ofConcrete ⟨0⟩ "using System . Text;" (dottedUsingFile 13 [] 15)).titles =
        [(⟨.usingDirective, "System.Text", [], false⟩, 0)] ∧
      (ofConcrete ⟨0⟩ "using System . Text;" (dottedUsingFile 13 [] 15)).BindsAlike
        (ofConcrete ⟨0⟩ "using System.Text;" (dottedUsingFile 12 [] 13)) := by
  have hrespaced : Respaced "using System . Text;" "using System.Text;"
      (dottedUsingFile 13 [] 15).below (dottedUsingFile 12 [] 13).below := by decide +kernel
  exact ⟨by decide +kernel, (names_spelled_by_tokens ⟨0⟩ "using System . Text;"
    (dottedUsingFile 13 [] 15) (by decide +kernel)).2.2 ⟨0⟩ _ _ (by decide +kernel) hrespaced⟩

/-- A comment between the segments stays in the name, which would be `System.Text` without it. So
another namespace is imported than without the comment. -/
theorem comment_stays_in_name :
    NamesTokenized "using System./*x*/Text;"
        (dottedUsingFile 12 [leaf "comment" true 13 18] 18).below ∧
      (ofConcrete ⟨0⟩ "using System./*x*/Text;"
          (dottedUsingFile 12 [leaf "comment" true 13 18] 18)).titles =
        [(⟨.usingDirective, "System./*x*/Text", [], false⟩, 0)] ∧
      (dottedUsing 12 [leaf "comment" true 13 18] 18).plainName "using System./*x*/Text;" =
        "System.Text" ∧
      ¬ (ofConcrete ⟨0⟩ "using System.Text;" (dottedUsingFile 12 [] 13)).BindsAlike
        (ofConcrete ⟨0⟩ "using System./*x*/Text;"
          (dottedUsingFile 12 [leaf "comment" true 13 18] 18)) := by
  have hplain : 1 < (ofConcrete ⟨0⟩ "using System.Text;" (dottedUsingFile 12 [] 13)).size := by
    decide +kernel
  have hcommented : 1 < (ofConcrete ⟨0⟩ "using System./*x*/Text;"
      (dottedUsingFile 12 [leaf "comment" true 13 18] 18)).size := by
    decide +kernel
  have hother : (ofConcrete ⟨0⟩ "using System.Text;" (dottedUsingFile 12 [] 13)).titleAt 1 ≠
      (ofConcrete ⟨0⟩ "using System./*x*/Text;"
        (dottedUsingFile 12 [leaf "comment" true 13 18] 18)).titleAt 1 := by
    decide +kernel
  refine ⟨by decide +kernel, by decide +kernel, by decide +kernel, fun h => ?_⟩
  have htitle := h.title ⟨1, hplain⟩ ⟨1, hcommented⟩ (Eq.refl 1)
  rw [title_declaration, title_declaration] at htitle
  exact hother htitle

end Tree

end StubGen
