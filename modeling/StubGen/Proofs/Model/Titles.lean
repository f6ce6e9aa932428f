import StubGen.Proofs.Model.Scopes
import StubGen.Proofs.Tree.Shape

/-!
# What is bound goes by titles

Of a declaration, the lookup of names sees the title: what it is, what it is called and whether it
imports for every file. Two trees that agree in the titles, node by node, and in the parents bind
the same attributes and types at the same nodes. Where these stand in the text does not matter.
-/

namespace StubGen

/-- What a declaration is and what it and its attributes are called. -/
structure Declaration.Title where
  kind : Declaration.Kind
  name : String
  attributes : List String
  /-- Whether it is a using directive for every file. -/
  isGlobal : Bool
deriving DecidableEq

/-- The title of a declaration. -/
def Declaration.title (d : Declaration) : Declaration.Title where
  kind := d.kind
  name := d.name
  attributes := d.attributes.map (·.name)
  isGlobal := decide (d.kind = .usingDirective) && d.modifiers.contains Modifiers.globalToken

/-- A forest with its labels replaced. -/
def Forest.map {α β : Type} (g : α → β) : Forest α → Forest β
  | nil => nil
  | cons label children rest => cons (g label) (children.map g) (rest.map g)

namespace Forest

variable {α β : Type}

/-- Replacing labels keeps their number. -/
@[simp] theorem size_map (g : α → β) (f : Forest α) : (f.map g).size = f.size := by
  induction f with
  | nil => rfl
  | cons label children rest ihChildren ihRest => rw [map, size, size, ihChildren, ihRest]

/-- Labels are replaced part by part. -/
@[simp] theorem map_append (g : α → β) (f f' : Forest α) :
    (f ++ f').map g = f.map g ++ f'.map g := by
  induction f with
  | nil => rfl
  | cons label children rest _ ih => rw [cons_append, map, ih, map, cons_append]

end Forest

namespace Tree

variable {t t' : Tree} {i : Fin t.size} {i' : Fin t'.size}

/-- The titles of the members, with the numbers of their parents. -/
def titles (t : Tree) : List (Declaration.Title × Nat) :=
  t.members.toList.map fun m => (m.declaration.title, m.parent)

/-- The title of the node with the given number. -/
def titleAt (t : Tree) : Nat → Declaration.Title
  | 0 => Declaration.title { kind := .compilationUnit }
  | k + 1 => (t.titles[k]?.map (·.1)).getD (Declaration.title default)

/-- The members of a forest have the titles of its labels. -/
theorem map_title_numbered {f f' : Forest Declaration}
    (h : f.map Declaration.title = f'.map Declaration.title) (next parent : Nat) :
    (numbered next parent f).map (fun m => (m.declaration.title, m.parent)) =
      (numbered next parent f').map fun m => (m.declaration.title, m.parent) := by
  induction f generalizing f' next parent with
  | nil =>
    cases f' with
    | nil => rfl
    | cons => simp [Forest.map] at h
  | cons d below rest ihBelow ihRest =>
    cases f' with
    | nil => simp [Forest.map] at h
    | cons d' below' rest' =>
      obtain ⟨htitle, hbelow, hrest⟩ := Forest.cons.inj h
      have hsize : below.size = below'.size := by
        rw [← Forest.size_map Declaration.title, hbelow, Forest.size_map]
      simp only [numbered, List.map_cons, List.map_append, htitle, hsize, ihBelow hbelow,
        ihRest hrest]

/-- Trees made of forests with the same titles have the same titles. -/
theorem titles_ofForest {file file' : FileId} {span span' : Span} {f f' : Forest Declaration}
    (h : f.map Declaration.title = f'.map Declaration.title) :
    (ofForest file span f).titles = (ofForest file' span' f').titles := by
  rw [titles, titles, members_ofForest, members_ofForest, map_title_numbered h]

/-- A node has the title that goes with its number. -/
theorem title_declaration (i : Fin t.size) :
    (t.declaration i).title = t.titleAt i.val := by
  obtain ⟨k, hk⟩ := i
  cases k with
  | zero => rfl
  | succ k => simp [declaration, titleAt, titles, Nat.succ_lt_succ_iff.mp hk]

/-- Trees with the same titles have as many nodes. -/
theorem size_of_titles (h : t.titles = t'.titles) : t.size = t'.size := by
  have hlength := congrArg List.length h
  simpa [titles, size] using hlength

/-- They have the same parents. -/
theorem parentNumber?_of_titles (h : t.titles = t'.titles) (k : Nat) :
    t.parentNumber? k = t'.parentNumber? k := by
  cases k with
  | zero => rfl
  | succ k =>
    have hentry := congrArg (fun entries => entries[k]?.map (·.2)) h
    simpa [titles, parentNumber?, Option.map_map, Function.comp_def] using hentry

/-- They have the same titles at the same numbers. -/
theorem titleAt_of_titles (h : t.titles = t'.titles) : t.titleAt = t'.titleAt := by
  funext k
  cases k with
  | zero => rfl
  | succ k => rw [titleAt, titleAt, h]

/-- They have the same nodes above nodes of the same number. -/
theorem map_val_ancestors (h : t.titles = t'.titles) (hi : i.val = i'.val) :
    (t.ancestors i).map (·.val) = (t'.ancestors i').map (·.val) := by
  induction i using parent_induction generalizing i' with
  | root i hnone =>
    have hnone' : t'.parent i' = none :=
      parent_eq_none_iff.mpr (hi ▸ parent_eq_none_iff.mp hnone)
    rw [ancestors_of_parent_none hnone, ancestors_of_parent_none hnone']
    rfl
  | child i p hp ih =>
    have hlt : p.val < t'.size := size_of_titles h ▸ p.isLt
    have hp' : t'.parent i' = some ⟨p.val, hlt⟩ := by
      rw [parent_eq_some_iff_number, ← hi, ← parentNumber?_of_titles h]
      exact parent_eq_some_iff_number.mp hp
    have hval : p.val = (⟨p.val, hlt⟩ : Fin t'.size).val := rfl
    rw [ancestors_of_parent hp, ancestors_of_parent hp', List.map_cons, List.map_cons, ih hval]

/-- They have the same nodes below nodes of the same number. -/
theorem map_val_children_of_titles (h : t.titles = t'.titles) (hi : i.val = i'.val) :
    (t.children i).map (·.val) = (t'.children i').map (·.val) := by
  have hrange : List.range t.size = List.range t'.size := congrArg List.range (size_of_titles h)
  rw [map_val_children, map_val_children, hrange]
  refine List.filter_congr fun k _ => ?_
  rw [parentNumber?_of_titles h, hi]

/-- Nodes of the same numbers have the same titles. -/
theorem map_title_of_map_val (h : t.titles = t'.titles) {nodes : List (Fin t.size)}
    {nodes' : List (Fin t'.size)} (hnodes : nodes.map (·.val) = nodes'.map (·.val)) :
    (nodes.map t.declaration).map Declaration.title =
      (nodes'.map t'.declaration).map Declaration.title := by
  have hmap (u : Tree) (list : List (Fin u.size)) :
      (list.map u.declaration).map Declaration.title = (list.map (·.val)).map u.titleAt := by
    rw [List.map_map, List.map_map]
    exact List.map_congr_left fun i _ => title_declaration i
  rw [hmap, hmap, hnodes, titleAt_of_titles h]

/-- The nodes below those of the same numbers. -/
theorem map_val_flatMap_children (h : t.titles = t'.titles) {nodes : List (Fin t.size)}
    {nodes' : List (Fin t'.size)} (hnodes : nodes.map (·.val) = nodes'.map (·.val)) :
    (nodes.flatMap t.children).map (·.val) = (nodes'.flatMap t'.children).map (·.val) := by
  induction nodes generalizing nodes' with
  | nil =>
    obtain rfl := List.map_eq_nil_iff.mp hnodes.symm
    rfl
  | cons i rest ih =>
    cases nodes' with
    | nil => simp at hnodes
    | cons i' rest' =>
      obtain ⟨hi, hrest⟩ := List.cons.inj hnodes
      rw [List.flatMap_cons, List.flatMap_cons, List.map_append, List.map_append, ih hrest,
        map_val_children_of_titles h hi]

end Tree

namespace Model

variable {t t' : Tree} {imported : List Namespace} {i : Fin t.size} {i' : Fin t'.size}

/-- Where the declarations around have the same titles the namespace is the same. -/
theorem enclosingNamespace_of_titles (h : t.titles = t'.titles) (hi : i.val = i'.val) :
    (⟨t, imported⟩ : Model).enclosingNamespace i =
      (⟨t', imported⟩ : Model).enclosingNamespace i' := by
  have hread (declarations : List Declaration) :
      (declarations.filter (·.kind == .namespaceDeclaration)).reverse.flatMap
          (fun d => (Namespace.ofDotted d.name).segments) =
        ((declarations.map Declaration.title).filter
          (·.kind == .namespaceDeclaration)).reverse.flatMap
            fun d => (Namespace.ofDotted d.name).segments := by
    rw [List.filter_map, ← List.map_reverse, List.flatMap_map]
    rfl
  unfold enclosingNamespace
  rw [hread, hread, Tree.map_title_of_map_val h (Tree.map_val_ancestors h hi)]

/-- The targets of using directives are read off their titles. -/
theorem map_target_filter (declarations : List Declaration) :
    (declarations.filter (·.kind == .usingDirective)).map
        (fun d => Namespace.ofDotted d.name) =
      ((declarations.map Declaration.title).filter (·.kind == .usingDirective)).map
        fun d => Namespace.ofDotted d.name := by
  rw [List.filter_map, List.map_map]
  rfl

/-- Names are looked up in the same namespaces. -/
theorem lookupScopes_of_titles (h : t.titles = t'.titles) (hi : i.val = i'.val)
    (withUsings : Bool) :
    (⟨t, imported⟩ : Model).lookupScopes i withUsings =
      (⟨t', imported⟩ : Model).lookupScopes i' withUsings := by
  have hlocal : (⟨t, imported⟩ : Model).localUsings i =
      (⟨t', imported⟩ : Model).localUsings i' := by
    unfold localUsings
    rw [map_target_filter, map_target_filter, Tree.map_title_of_map_val h
      (Tree.map_val_flatMap_children h (Tree.map_val_ancestors h hi))]
  unfold lookupScopes usings
  rw [enclosingNamespace_of_titles h hi, hlocal]

end Model

/-- The global using directives at the top of a file are read off the titles. -/
theorem Compilation.globalUsingsOf_of_titles {t t' : Tree} (h : t.titles = t'.titles) :
    globalUsingsOf t = globalUsingsOf t' := by
  have hread (declarations : List Declaration) :
      declarations.filterMap (fun d =>
        if d.kind = .usingDirective ∧ d.modifiers.contains Modifiers.globalToken then
          some (Namespace.ofDotted d.name)
        else none) =
      (declarations.map Declaration.title).filterMap fun d =>
        if d.isGlobal then some (Namespace.ofDotted d.name) else none := by
    rw [List.filterMap_map]
    refine List.filterMap_congr fun d _ => ?_
    simp [Declaration.title]
  unfold globalUsingsOf
  have hroot : t.root.val = t'.root.val := rfl
  rw [hread, hread, Tree.map_title_of_map_val h (Tree.map_val_children_of_titles h hroot)]

/-- The second tree has the nodes of the first one under the same names, and at every node the same
is bound. -/
structure Tree.BindsAlike (t t' : Tree) : Prop where
  size : t.size = t'.size
  title : ∀ (i : Fin t.size) (i' : Fin t'.size), i.val = i'.val →
    (t.declaration i).title = (t'.declaration i').title
  globalUsings : Compilation.globalUsingsOf t = Compilation.globalUsingsOf t'
  enclosingNamespace : ∀ imported (i : Fin t.size) (i' : Fin t'.size), i.val = i'.val →
    (⟨t, imported⟩ : Model).enclosingNamespace i = (⟨t', imported⟩ : Model).enclosingNamespace i'
  attributeBinds : ∀ imported (i : Fin t.size) (i' : Fin t'.size), i.val = i'.val →
    ∀ written metadata, (⟨t, imported⟩ : Model).attributeBinds i written metadata =
      (⟨t', imported⟩ : Model).attributeBinds i' written metadata
  resolve : ∀ imported (i : Fin t.size) (i' : Fin t'.size), i.val = i'.val →
    ∀ written, (⟨t, imported⟩ : Model).resolve i written =
      (⟨t', imported⟩ : Model).resolve i' written

/-- Trees with the same titles bind the same. -/
theorem Tree.bindsAlike_of_titles {t t' : Tree} (h : t.titles = t'.titles) :
    t.BindsAlike t' where
  size := size_of_titles h
  title := by
    intro i i' hi
    rw [title_declaration, title_declaration, hi, titleAt_of_titles h]
  globalUsings := Compilation.globalUsingsOf_of_titles h
  enclosingNamespace := fun _ _ _ hi => Model.enclosingNamespace_of_titles h hi
  attributeBinds := by
    intro imported i i' hi written metadata
    simp only [Model.attributeBinds, Model.lookupScopes_of_titles h hi]
  resolve := by
    intro imported i i' hi written
    have hspecial (type : TypeSyntax) : (⟨t, imported⟩ : Model).resolveSpecial? i type =
        (⟨t', imported⟩ : Model).resolveSpecial? i' type := by
      cases type with
      | keyword => rfl
      | named name =>
        simp only [Model.resolveSpecial?, Model.resolveName?, Model.lookupScopes_of_titles h hi]
    simp only [Model.resolve, hspecial]

end StubGen
