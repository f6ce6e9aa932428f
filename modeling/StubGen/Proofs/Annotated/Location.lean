import StubGen.Proofs.Record.Selection

/-!
# Which declarations are located

The search for annotated declarations asks cheap questions first: whether an attribute has
the simple name of the class, then the predicate, and only then whether an attribute is of
the class and whether the node declares a symbol. What it locates is said here without any of
these questions coming first. Their order shows only in what the predicate is asked about.

Predicates are functions here. A predicate that changes what it is asked about later is not
covered.
-/

namespace StubGen

namespace Model

variable {m : Model} {i : Fin m.tree.size}

/-- A symbol is declared by the type declarations and by the methods below one. -/
theorem targetSymbol?_isSome_iff :
    (m.targetSymbol? i).isSome = true ↔
      (m.tree.declaration i).kind.isType = true ∨
        (m.tree.declaration i).kind = .methodDeclaration ∧
          ∃ p, m.tree.parent i = some p ∧ (m.tree.declaration p).kind.isType = true := by
  rw [← declaredMethod?_isSome_iff, ← declaredType?_isSome_iff]
  unfold targetSymbol?
  cases hkind : (m.tree.declaration i).kind with
  | methodDeclaration =>
    have htype : ¬ (m.declaredType? i).isSome = true := by
      rw [declaredType?_isSome_iff, hkind]
      decide
    simp only [Option.isSome_map, htype, Bool.false_eq_true, false_or]
  | typeDeclaration form =>
    have hmethod : ¬ (m.declaredMethod? i).isSome = true := by
      rw [declaredMethod?_isSome_iff, hkind]
      exact fun h => absurd h.1 (by simp)
    simp only [Option.isSome_map, hmethod, Bool.false_eq_true, or_false]
  | compilationUnit | usingDirective | namespaceDeclaration | other =>
    simp [declaredType?_isSome_iff, declaredMethod?_isSome_iff, hkind, Declaration.Kind.isType,
      Declaration.Kind.typeForm?]

end Model

/-- A predicate that notes what it is asked about, first to last. -/
def noting (predicate : NodeRef → Bool) (n : NodeRef) : StateM (List NodeRef) Bool := do
  modify (· ++ [n])
  pure (predicate n)

namespace Compilation

variable {c : Compilation} {metadata : String} {n : NodeRef}

/-- What makes a node an annotated declaration, without a look at its simple names. -/
structure IsAnnotated (c : Compilation) (metadata : String) (n : NodeRef) : Prop where
  isBound : ∃ a ∈ n.declaration.attributes,
    (c.model n.tree).attributeBinds n.id a.name metadata = true
  /-- The node declares a type, or a method below one. -/
  declaresSymbol : n.declaration.kind.isType = true ∨
    n.declaration.kind = .methodDeclaration ∧
      ∃ p ∈ n.parent, p.declaration.kind.isType = true

/-- Whether a node is an annotated declaration can be computed. -/
instance (c : Compilation) (metadata : String) : DecidablePred (c.IsAnnotated metadata) :=
  fun n => decidable_of_iff
    ((∃ a ∈ n.declaration.attributes,
        (c.model n.tree).attributeBinds n.id a.name metadata = true) ∧
      (n.declaration.kind.isType = true ∨ n.declaration.kind = .methodDeclaration ∧
        ∃ p ∈ n.parent, p.declaration.kind.isType = true))
    ⟨fun ⟨h₁, h₂⟩ => ⟨h₁, h₂⟩, fun ⟨h₁, h₂⟩ => ⟨h₁, h₂⟩⟩

/-- What is handed on about an annotated declaration. -/
structure Describes (c : Compilation) (metadata : String) (n : NodeRef) (a : Annotated) :
    Prop where
  node_eq : a.node = n
  symbol_eq : (c.model n.tree).targetSymbol? n.id = some a.symbol
  /-- Exactly the attributes of the class are handed on, in their order. -/
  written_eq : a.attributes.map (·.written) = n.declaration.attributes.filter
    fun b => (c.model n.tree).attributeBinds n.id b.name metadata
  className_eq : ∀ b ∈ a.attributes, b.className = metadata

/-- A node has a symbol exactly if it declares a type, or a method below one. -/
theorem targetSymbol?_isSome_iff :
    ((c.model n.tree).targetSymbol? n.id).isSome = true ↔
      n.declaration.kind.isType = true ∨ n.declaration.kind = .methodDeclaration ∧
        ∃ p ∈ n.parent, p.declaration.kind.isType = true := by
  simp only [NodeRef.mem_parent_iff, exists_exists_and_eq_and]
  exact Model.targetSymbol?_isSome_iff

/-- The bound attributes of a node are those of its attributes that bind. -/
theorem map_written_boundAttributes (m : Model) (i : Fin m.tree.size) (metadata : String) :
    (m.boundAttributes i metadata).map (·.written) =
      (m.tree.declaration i).attributes.filter fun a => m.attributeBinds i a.name metadata := by
  rw [Model.boundAttributes, List.map_map]
  exact List.map_id _

/-- What is located at a node with bound attributes is its symbol with these. -/
theorem annotated?_of_bound (h : (c.model n.tree).boundAttributes n.id metadata ≠ []) :
    c.annotated? metadata n = ((c.model n.tree).targetSymbol? n.id).map fun symbol =>
      { node := n, symbol, attributes := (c.model n.tree).boundAttributes n.id metadata } := by
  unfold annotated?
  dsimp only
  cases hbound : (c.model n.tree).boundAttributes n.id metadata with
  | nil => exact absurd hbound h
  | cons first rest => rfl

/-- Only annotated declarations are located, and they are handed on as they are. -/
theorem describes_of_annotated? {a : Annotated} (h : c.annotated? metadata n = some a) :
    c.IsAnnotated metadata n ∧ c.Describes metadata n a := by
  have hbound : (c.model n.tree).boundAttributes n.id metadata ≠ [] := by
    intro hnil
    simp [annotated?, hnil] at h
  rw [annotated?_of_bound hbound] at h
  obtain ⟨symbol, hsymbol, rfl⟩ := Option.map_eq_some_iff.mp h
  constructor
  · exact
      { isBound := boundAttributes_ne_nil_iff.mp hbound
        declaresSymbol := targetSymbol?_isSome_iff.mp (Option.isSome_of_mem hsymbol) }
  · exact
      { node_eq := rfl
        symbol_eq := hsymbol
        written_eq := map_written_boundAttributes (c.model n.tree) n.id metadata
        className_eq := fun b hb => by
          obtain ⟨a, -, rfl⟩ := List.mem_map.mp hb
          rfl }

/-- Every annotated declaration is located. -/
theorem annotated?_isSome_of_isAnnotated (h : c.IsAnnotated metadata n) :
    (c.annotated? metadata n).isSome = true := by
  rw [annotated?_of_bound (boundAttributes_ne_nil_iff.mpr h.isBound), Option.isSome_map]
  exact targetSymbol?_isSome_iff.mpr h.declaresSymbol

/-- A search with a noting predicate finds what the search without notes finds, and notes
exactly the nodes that have the simple name. -/
theorem run_selectAnnotated_noting (c : Compilation) (metadata : String)
    (predicate : NodeRef → Bool) (list noted : List NodeRef) :
    Id.run ((c.selectAnnotated metadata (noting predicate) list).run noted) =
      (Id.run (c.selectAnnotated metadata (fun n => pure (predicate n)) list),
        noted ++ list.filter (·.namesAttribute metadata)) := by
  induction list generalizing noted with
  | nil => simp [selectAnnotated]
  | cons n rest ih =>
    rw [selectAnnotated, selectAnnotated, List.filter_cons]
    cases n.namesAttribute metadata with
    | false => simpa using ih noted
    | true =>
      have hrest := ih (noted ++ [n])
      rw [List.append_assoc, List.singleton_append] at hrest
      simpa [noting, Prod.ext_iff] using hrest

/-- The search locates exactly the annotated declarations for which the predicate holds: in
file order and in pre-order within a file, and handed on as they are. The predicate is asked
once about each node with an attribute of the simple name of the class and about no other,
where the pre-order of a file holds each of its nodes once. -/
theorem annotated_exactly {β : Type} (c : Compilation) (metadata : String)
    (predicate : NodeRef → Bool) (transform : Annotated → β) :
    let search := Id.run ((c.annotatedM metadata (noting predicate)).run [])
    List.Forall₂ (fun n result => ∃ a, c.Describes metadata n a ∧ transform a = result)
        (c.preorder.filter fun n => predicate n = true ∧ c.IsAnnotated metadata n)
        (search.1.map transform) ∧
      search.2 = c.preorder.filter (·.namesAttribute metadata) ∧
      search.1 = c.annotated metadata predicate ∧
      ∀ t ∈ c.trees, (t.preorder t.root).Nodup ∧ ∀ i, i ∈ t.preorder t.root := by
  intro search
  have hsearch : search = (c.annotated metadata predicate,
      c.preorder.filter (·.namesAttribute metadata)) := by
    rw [← nodes_eq_preorder]
    exact c.run_selectAnnotated_noting metadata predicate c.nodes []
  have hfound : c.annotated metadata predicate = c.preorder.filterMap fun n =>
      if n.namesAttribute metadata && predicate n then c.annotated? metadata n else none := by
    rw [← nodes_eq_preorder]
    exact c.selectAnnotated_eq_filterMap metadata predicate c.nodes
  rw [hsearch]
  refine ⟨?_, rfl, rfl, fun t _ => ⟨Tree.preorder_nodup t.root, Tree.mem_preorder_root⟩⟩
  rw [hfound, List.map_filterMap]
  apply forall₂_filter_filterMap
  · intro n result hresult
    obtain ⟨a, ha, rfl⟩ := Option.map_eq_some_iff.mp hresult
    split at ha
    · rename_i hasked
      obtain ⟨hannotated, hdescribes⟩ := describes_of_annotated? ha
      exact ⟨⟨(Bool.and_eq_true_iff.mp hasked).2, hannotated⟩, a, hdescribes, rfl⟩
    · contradiction
  · intro n hn
    obtain ⟨hwanted, hannotated⟩ := hn
    -- An attribute that binds has the simple name, so the first test lets the node pass.
    obtain ⟨a, ha, hbinds⟩ := hannotated.isBound
    rw [namesAttribute_of_binds ha hbinds, hwanted, Bool.true_and, if_pos rfl, Option.isSome_map]
    exact annotated?_isSome_of_isAnnotated hannotated

end Compilation

end StubGen
