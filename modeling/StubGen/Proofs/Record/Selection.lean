import Mathlib.Data.List.Forall2
import StubGen.Proofs.Candidate.Structure
import StubGen.Proofs.Fragment.Batch
import StubGen.Proofs.Generator.Pass
import StubGen.Proofs.Model.Declared
import StubGen.Proofs.Tree.Preorder

/-!
# Which methods are completed

A declarative account of the methods that get a record, and of what the record says. The
search for annotated declarations, its cheap tests, the binding of attributes, the
construction of symbols and the tests of the projection together select exactly these
methods, in file order and in pre-order within a file.
-/

namespace StubGen

/-- A projection that is defined exactly on the elements with a property keeps these, in
order. -/
theorem forall₂_filter_filterMap {α β : Type} {P : α → Prop} [DecidablePred P]
    {R : α → β → Prop} {f : α → Option β} (hsome : ∀ a b, f a = some b → P a ∧ R a b)
    (htotal : ∀ a, P a → (f a).isSome) (list : List α) :
    List.Forall₂ R (list.filter fun a => P a) (list.filterMap f) := by
  induction list with
  | nil => exact .nil
  | cons a rest ih =>
    by_cases ha : P a
    · obtain ⟨b, hb⟩ := Option.isSome_iff_exists.mp (htotal a ha)
      rw [List.filter_cons_of_pos (by simpa using ha), List.filterMap_cons_some hb]
      exact .cons (hsome a b hb).2 ih
    · have hnone : f a = none := by
        cases hb : f a with
        | none => rfl
        | some b => exact absurd (hsome a b hb).1 ha
      rwa [List.filter_cons_of_neg (by simpa using ha), List.filterMap_cons_none hnone]

/-- An attribute that binds has the simple name of the class. -/
theorem Model.simpleNameMatches_of_attributeBinds {m : Model} {i : Fin m.tree.size}
    {written metadata : String} (h : m.attributeBinds i written metadata = true) :
    simpleNameMatches written metadata = true := by
  rw [attributeBinds, Bool.and_eq_true] at h
  exact h.1

namespace MethodSymbol

/-- The only parameter of a method, if it is a string. -/
theorem soleStringParameter?_eq_some {m : MethodSymbol} {parameter : ParameterSymbol} :
    m.soleStringParameter? = some parameter ↔
      m.parameters = [parameter] ∧ parameter.type.bind (·.special) = some .string := by
  unfold soleStringParameter?
  split
  · rename_i only honly
    rw [honly]
    by_cases hstring : only.type.bind (·.special) = some .string
    · rw [if_pos hstring]
      constructor
      · rintro ⟨rfl⟩
        exact ⟨rfl, hstring⟩
      · rintro ⟨⟨rfl⟩, _⟩
        rfl
    · rw [if_neg hstring]
      constructor
      · rintro ⟨⟩
      · rintro ⟨⟨rfl⟩, h⟩
        exact absurd h hstring
  · rename_i hmany
    constructor
    · rintro ⟨⟩
    · rintro ⟨honly, _⟩
      exact absurd honly (hmany parameter)

/-- The record of a method with a given parameter. -/
def recordWith (m : MethodSymbol) (n : NodeRef) (parameter : ParameterSymbol) : Record where
  memberName := m.name
  parameterName := parameter.name
  typeName := m.containingType.name
  inNamespace := m.containingType.inNamespace
  typeKind := m.containingType.kind
  node := n

/-- When a method has a record, and which one. -/
theorem record?_eq_some {m : MethodSymbol} {n : NodeRef} {r : Record} :
    m.record? n = some r ↔
      (n.declaration.kind = .methodDeclaration ∧ m.typeParameters = [] ∧ m.returnsVoid ∧
        m.isStatic ∧ m.inReopenableType) ∧
      ∃ parameter, (m.parameters = [parameter] ∧
        parameter.type.bind (·.special) = some .string) ∧ m.recordWith n parameter = r := by
  unfold record?
  split
  · rename_i hshape
    rw [Option.map_eq_some_iff]
    simp only [soleStringParameter?_eq_some, hshape, true_and]
    rfl
  · rename_i hshape
    exact ⟨fun h => absurd h (by simp), fun h => absurd h.1 hshape⟩

end MethodSymbol

/-- The kind of a type that is no enum can be reopened. -/
theorem TypeKind.ofForm_reopenable {form : TypeForm} (h : form ≠ .enumType) :
    TypeKind.ofForm form ≠ .enumKind ∧ TypeKind.ofForm form ≠ .delegateKind := by
  cases form with
  | enumType => exact absurd rfl h
  | _ => exact ⟨by decide, by decide⟩

namespace Compilation

/-- What is asked of a method that gets a record. -/
structure Completable (c : Compilation) (n : NodeRef) : Prop where
  isMethod : n.declaration.kind = .methodDeclaration
  isPartial : Modifiers.partialToken ∈ n.declaration.modifiers.tokens
  isStatic : Modifiers.staticToken ∈ n.declaration.modifiers.tokens
  /-- The parent declares a partial type that is no enum. -/
  inPartialType : ∃ p ∈ n.parent, ∃ form ∈ p.declaration.kind.typeForm?,
    form ≠ .enumType ∧ Modifiers.partialToken ∈ p.declaration.modifiers.tokens
  isAnnotated : ∃ a ∈ n.declaration.attributes,
    (c.model n.tree).attributeBinds n.id a.name greetingAttribute = true
  notGeneric : n.declaration.typeParameters = []
  oneParameter : n.declaration.parameters.length = 1
  takesString : ∀ parameter ∈ n.declaration.parameters, ∃ type ∈ parameter.type,
    ((c.model n.tree).resolve n.id type).special = some .string
  returnsNothing : ∃ type ∈ n.declaration.returnType,
    ((c.model n.tree).resolve n.id type).special = some .void

/-- Whether a method is to get a record can be computed. -/
instance (c : Compilation) : DecidablePred c.Completable := fun n =>
  decidable_of_iff
    (n.declaration.kind = .methodDeclaration ∧
      Modifiers.partialToken ∈ n.declaration.modifiers.tokens ∧
      Modifiers.staticToken ∈ n.declaration.modifiers.tokens ∧
      (∃ p ∈ n.parent, ∃ form ∈ p.declaration.kind.typeForm?,
        form ≠ .enumType ∧ Modifiers.partialToken ∈ p.declaration.modifiers.tokens) ∧
      (∃ a ∈ n.declaration.attributes,
        (c.model n.tree).attributeBinds n.id a.name greetingAttribute = true) ∧
      n.declaration.typeParameters = [] ∧
      n.declaration.parameters.length = 1 ∧
      (∀ parameter ∈ n.declaration.parameters, ∃ type ∈ parameter.type,
        ((c.model n.tree).resolve n.id type).special = some .string) ∧
      ∃ type ∈ n.declaration.returnType,
        ((c.model n.tree).resolve n.id type).special = some .void)
    ⟨fun ⟨h₁, h₂, h₃, h₄, h₅, h₆, h₇, h₈, h₉⟩ => ⟨h₁, h₂, h₃, h₄, h₅, h₆, h₇, h₈, h₉⟩,
      fun ⟨h₁, h₂, h₃, h₄, h₅, h₆, h₇, h₈, h₉⟩ => ⟨h₁, h₂, h₃, h₄, h₅, h₆, h₇, h₈, h₉⟩⟩

/-- What the record of a method says. -/
structure IsRecordOf (c : Compilation) (n : NodeRef) (r : Record) : Prop where
  node_eq : r.node = n
  memberName_eq : r.memberName = n.declaration.name
  parameterName_eq : n.declaration.parameters.map (·.name) = [r.parameterName]
  /-- The type that holds the method is the one declared by the parent. -/
  ofParent : ∃ p ∈ n.parent, r.typeName = p.declaration.name ∧
    p.declaration.kind.typeForm?.map TypeKind.ofForm = some r.typeKind ∧
    r.inNamespace = (c.model p.tree).enclosingNamespace p.id

/-- The record that is drawn from a node, if any. -/
def recordAt? (c : Compilation) (n : NodeRef) : Option Record :=
  if n.namesAttribute greetingAttribute && n.isAnnotatedCandidate then
    (c.annotated? greetingAttribute n).bind (·.record?)
  else none

/-- A pure search through nodes keeps what each of them gives on its own. -/
theorem selectAnnotated_eq_filterMap (c : Compilation) (metadata : String)
    (predicate : NodeRef → Bool) (list : List NodeRef) :
    Id.run (c.selectAnnotated metadata (fun n => pure (predicate n)) list) =
      list.filterMap fun n =>
        if n.namesAttribute metadata && predicate n then c.annotated? metadata n else none := by
  induction list with
  | nil => rfl
  | cons n rest ih =>
    rw [selectAnnotated, List.filterMap_cons]
    cases n.namesAttribute metadata with
    | false => exact ih
    | true =>
      cases hwanted : predicate n with
      | false => simpa [hwanted] using ih
      | true => cases hfound : c.annotated? metadata n <;> simpa [hwanted, hfound] using ih

/-- The records found in a search through nodes are those that the nodes give. -/
theorem collect_selectAnnotated (c : Compilation) (list : List NodeRef) :
    Batch.collect ((Id.run (c.selectAnnotated greetingAttribute
      (fun n => pure n.isAnnotatedCandidate) list)).map (·.record?)) =
      list.filterMap c.recordAt? := by
  rw [selectAnnotated_eq_filterMap, Batch.collect, List.filterMap_map, List.filterMap_filterMap]
  congr 1
  funext n
  simp only [recordAt?, Function.comp_def, id]
  split <;> rfl

/-- The records are those that the nodes give, in file order and in pre-order. -/
theorem records_eq_filterMap (c : Compilation) :
    c.records = c.preorder.filterMap c.recordAt? := by
  rw [← nodes_eq_preorder]
  exact c.collect_selectAnnotated c.nodes

/-- A method that has bound attributes gives the record of its symbol. -/
theorem annotated?_bind_record? {c : Compilation} {metadata : String} {n : NodeRef}
    (hkind : n.declaration.kind = .methodDeclaration) :
    (c.annotated? metadata n).bind (·.record?) =
      if (c.model n.tree).boundAttributes n.id metadata = [] then none
      else ((c.model n.tree).declaredMethod? n.id).bind (·.record? n) := by
  have hsymbol : (c.model n.tree).targetSymbol? n.id =
      ((c.model n.tree).declaredMethod? n.id).map .method := by
    unfold Model.targetSymbol?
    rw [show ((c.model n.tree).tree.declaration n.id).kind = .methodDeclaration from hkind]
  unfold annotated?
  dsimp only
  cases (c.model n.tree).boundAttributes n.id metadata with
  | nil => rfl
  | cons a rest =>
    rw [if_neg (List.cons_ne_nil a rest)]
    simp only [hsymbol]
    cases (c.model n.tree).declaredMethod? n.id <;> rfl

/-- An attribute that is bound has the simple name of its class. -/
theorem namesAttribute_of_binds {c : Compilation} {metadata : String} {n : NodeRef}
    {a : Declaration.Attribute} (ha : a ∈ n.declaration.attributes)
    (hbinds : (c.model n.tree).attributeBinds n.id a.name metadata = true) :
    n.namesAttribute metadata = true :=
  List.any_eq_true.mpr ⟨a, ha, Model.simpleNameMatches_of_attributeBinds hbinds⟩

/-- A node has bound attributes exactly if one of its attributes binds. -/
theorem boundAttributes_ne_nil_iff {m : Model} {i : Fin m.tree.size} {metadata : String} :
    m.boundAttributes i metadata ≠ [] ↔
      ∃ a ∈ (m.tree.declaration i).attributes, m.attributeBinds i a.name metadata = true := by
  rw [Model.boundAttributes, ne_eq, List.map_eq_nil_iff, List.filter_eq_nil_iff]
  simp

/-- Being reopenable is not being an enum, for the type of a declaration. -/
theorem inReopenableType_iff {m : MethodSymbol} {form : TypeForm}
    (h : m.containingType.kind = TypeKind.ofForm form) :
    m.inReopenableType = true ↔ form ≠ .enumType := by
  unfold MethodSymbol.inReopenableType
  rw [h]
  cases form <;> simp [TypeKind.ofForm]

/-- A method returns nothing exactly if a return type is written that resolves to it. -/
theorem methodOf_returnsVoid {m : Model} {i : Fin m.tree.size} {containing : NamedType} :
    (m.methodOf i containing).returnsVoid = true ↔
      ∃ type ∈ (m.tree.declaration i).returnType, (m.resolve i type).special = some .void := by
  rw [MethodSymbol.returnsVoid, beq_iff_eq, Model.methodOf]
  cases (m.tree.declaration i).returnType <;> simp

/-- A resolved parameter is a string exactly if a type is written that resolves to it. -/
theorem bind_special_eq_string {m : Model} {i : Fin m.tree.size} {type : Option TypeSyntax} :
    (type.map (m.resolve i)).bind (·.special) = some .string ↔
      ∃ written ∈ type, (m.resolve i written).special = some .string := by
  cases type <;> simp

/-- What a partial method inside a partial type gives: the record of its symbol, if one of
its attributes binds. -/
theorem recordAt?_of_candidate {c : Compilation} {n : NodeRef}
    (hcandidate : n.isAnnotatedCandidate = true) {q : Fin n.tree.size} {form : TypeForm}
    (hq : n.tree.parent n.id = some q) (hform : (n.tree.declaration q).kind.typeForm? = some form) :
    ∃ type : NamedType,
      type.toTypeHeader =
        { name := (n.tree.declaration q).name
          kind := TypeKind.ofForm form
          inNamespace := (c.model n.tree).enclosingNamespace q
          typeParameters := (n.tree.declaration q).typeParameters } ∧
      c.recordAt? n =
        if (c.model n.tree).boundAttributes n.id greetingAttribute = [] then none
        else ((c.model n.tree).methodOf n.id type).record? n := by
  obtain ⟨hkind, -⟩ := NodeRef.isAnnotatedCandidate_iff.mp hcandidate
  obtain ⟨type, htype, hheader⟩ := Model.declaredType?_eq_some (m := c.model n.tree) hform
  have hmethod := Model.declaredMethod?_of_parent (m := c.model n.tree) hkind hq
  refine ⟨type, hheader, ?_⟩
  rw [recordAt?, hcandidate, Bool.and_true, annotated?_bind_record? hkind, hmethod, htype,
    Option.map_some, Option.bind_some]
  by_cases hbound : (c.model n.tree).boundAttributes n.id greetingAttribute = []
  · simp [hbound]
  · obtain ⟨a, ha, hbinds⟩ := boundAttributes_ne_nil_iff.mp hbound
    rw [if_neg hbound, if_pos (namesAttribute_of_binds ha hbinds)]

/-- A node that gives a record is to be completed, and the record is that of the method. -/
theorem completable_of_recordAt? {c : Compilation} {n : NodeRef} {r : Record}
    (h : c.recordAt? n = some r) : c.Completable n ∧ c.IsRecordOf n r := by
  have hcandidate : n.isAnnotatedCandidate = true := by
    by_contra hnot
    simp [recordAt?, hnot] at h
  obtain ⟨hkind, hpartial, p, hp, ⟨form, hform⟩, hreopened⟩ :=
    NodeRef.isAnnotatedCandidate_iff.mp hcandidate
  obtain ⟨q, hq, rfl⟩ := NodeRef.mem_parent_iff.mp hp
  obtain ⟨type, hheader, hrecord⟩ := recordAt?_of_candidate (c := c) hcandidate hq hform
  have hbound : (c.model n.tree).boundAttributes n.id greetingAttribute ≠ [] := by
    intro hnil
    rw [hrecord, if_pos hnil] at h
    contradiction
  rw [hrecord, if_neg hbound, MethodSymbol.record?_eq_some] at h
  obtain ⟨⟨-, hgeneric, hvoid, hstatic, hopen⟩, parameter, ⟨honly, hstring⟩, rfl⟩ := h
  obtain ⟨written, hwritten, rfl⟩ := List.map_eq_singleton_iff.mp honly
  change n.declaration.parameters = [written] at hwritten
  have hkindOf : type.kind = TypeKind.ofForm form := congrArg TypeHeader.kind hheader
  constructor
  · exact
      { isMethod := hkind
        isPartial := hpartial
        isStatic := List.contains_iff_mem.mp hstatic
        inPartialType := ⟨_, hp, form, hform, (inReopenableType_iff hkindOf).mp hopen, hreopened⟩
        isAnnotated := boundAttributes_ne_nil_iff.mp hbound
        notGeneric := hgeneric
        oneParameter := by rw [hwritten, List.length_singleton]
        takesString := by
          rw [hwritten]
          exact List.forall_mem_singleton.mpr (bind_special_eq_string.mp hstring)
        returnsNothing := methodOf_returnsVoid.mp hvoid }
  · exact
      { node_eq := rfl
        memberName_eq := rfl
        parameterName_eq := by rw [hwritten, List.map_singleton]; rfl
        ofParent := ⟨_, hp, congrArg TypeHeader.name hheader,
          (congrArg (Option.map TypeKind.ofForm) hform).trans (congrArg some hkindOf.symm),
          congrArg TypeHeader.inNamespace hheader⟩ }

/-- A method that is to be completed gives a record. -/
theorem recordAt?_isSome_of_completable {c : Compilation} {n : NodeRef}
    (h : c.Completable n) : (c.recordAt? n).isSome := by
  obtain ⟨p, hp, form, hform, henum, hreopened⟩ := h.inPartialType
  obtain ⟨q, hq, rfl⟩ := NodeRef.mem_parent_iff.mp hp
  have hcandidate : n.isAnnotatedCandidate = true :=
    NodeRef.isAnnotatedCandidate_iff.mpr
      ⟨h.isMethod, h.isPartial, _, hp, ⟨form, hform⟩, hreopened⟩
  obtain ⟨type, hheader, hrecord⟩ := recordAt?_of_candidate (c := c) hcandidate hq hform
  obtain ⟨written, hwritten⟩ := List.length_eq_one_iff.mp h.oneParameter
  have hstring := h.takesString written (hwritten ▸ List.mem_cons_self)
  have hbound : (c.model n.tree).boundAttributes n.id greetingAttribute ≠ [] :=
    boundAttributes_ne_nil_iff.mpr h.isAnnotated
  rw [hrecord, if_neg hbound, Option.isSome_iff_exists]
  let parameter : ParameterSymbol :=
    { name := written.name, type := written.type.map ((c.model n.tree).resolve n.id) }
  have honly : ((c.model n.tree).methodOf n.id type).parameters = [parameter] := by
    change n.declaration.parameters.map _ = _
    rw [hwritten, List.map_singleton]
  exact ⟨_, MethodSymbol.record?_eq_some.mpr ⟨⟨h.isMethod, h.notGeneric,
    methodOf_returnsVoid.mpr h.returnsNothing, List.contains_iff_mem.mpr h.isStatic,
    (inReopenableType_iff (congrArg TypeHeader.kind hheader)).mpr henum⟩,
    parameter, ⟨honly, bind_special_eq_string.mpr hstring⟩, rfl⟩⟩

/-- The records belong to the methods that are to be completed, in order. -/
theorem records_forall₂ (c : Compilation) :
    List.Forall₂ c.IsRecordOf (c.preorder.filter fun n => c.Completable n) c.records := by
  rw [records_eq_filterMap]
  exact forall₂_filter_filterMap (fun _ _ => completable_of_recordAt?)
    (fun _ => recordAt?_isSome_of_completable) c.preorder

/-- The nodes of the records are the methods that are to be completed, in order. -/
theorem map_node_records (c : Compilation) :
    c.records.map (·.node) = c.preorder.filter fun n => c.Completable n := by
  have hnodes := c.records_forall₂.imp fun n r (h : c.IsRecordOf n r) => h.node_eq.symm
  rw [← List.forall₂_map_right_iff, List.forall₂_eq_eq_eq] at hnodes
  exact hnodes.symm

/-- A record belongs to a method that is to be completed, and says of it what it should. -/
theorem isRecordOf_of_mem_records {c : Compilation} {r : Record} (h : r ∈ c.records) :
    c.Completable r.node ∧ c.IsRecordOf r.node r := by
  rw [records_eq_filterMap] at h
  obtain ⟨n, -, hr⟩ := List.mem_filterMap.mp h
  obtain ⟨hcompletable, hrecord⟩ := completable_of_recordAt? hr
  exact ⟨hrecord.node_eq ▸ hcompletable, hrecord.node_eq ▸ hrecord⟩

/-- The method of a record is declared in a file of the compilation. -/
theorem tree_mem_of_mem_records {c : Compilation} {r : Record} (h : r ∈ c.records) :
    r.node.tree ∈ c.trees := by
  have hnode := List.mem_map_of_mem (f := (·.node)) h
  rw [map_node_records] at hnode
  exact mem_preorder.mp (List.mem_of_mem_filter hnode)

/-- The type that a record names is the one declared by the parent of its method. -/
theorem exists_type_of_mem_records {c : Compilation} {r : Record} (h : r ∈ c.records) :
    ∃ p ∈ r.node.parent, ∃ form ∈ p.declaration.kind.typeForm?, form ≠ .enumType ∧
      r.typeName = p.declaration.name ∧ r.typeKind = TypeKind.ofForm form ∧
      r.inNamespace = (c.model p.tree).enclosingNamespace p.id := by
  obtain ⟨hcompletable, hrecord⟩ := isRecordOf_of_mem_records h
  obtain ⟨p, hp, form, hform, henum, -⟩ := hcompletable.inPartialType
  obtain ⟨q, hq, hname, hkind, hnamespace⟩ := hrecord.ofParent
  obtain rfl := Option.some.inj (hp.symm.trans hq)
  rw [hform, Option.map_some, Option.some.injEq] at hkind
  exact ⟨p, hp, form, hform, henum, hname, hkind.symm, hnamespace⟩

/-- The type of a record can be reopened. -/
theorem typeKind_of_mem_records {c : Compilation} {r : Record} (h : r ∈ c.records) :
    r.typeKind ≠ .enumKind ∧ r.typeKind ≠ .delegateKind := by
  obtain ⟨p, -, form, -, henum, -, hkind, -⟩ := exists_type_of_mem_records h
  exact hkind ▸ TypeKind.ofForm_reopenable henum

/-- The annotated methods are completed in one pass that never fails, with one fragment for
each record, under the file names of the batch. -/
theorem run_annotated (c : Compilation) :
    ∃ sources,
      Pass.run { generator := Generator.annotated.name } (Generator.annotated.program c) =
        ({ generator := Generator.annotated.name, sources := sources }, .ok ()) ∧
      sources.map (·.hintName) = c.records.fileNames Generator.annotatedSuffix ∧
      List.Forall₂ (fun r f => r.fragment f.hintName = .ok f) c.records sources := by
  obtain ⟨sources, hok, hnames, hmatch⟩ := Batch.fragments_ok
    (fun r hr => typeKind_of_mem_records hr) Generator.annotatedSuffix
  refine ⟨sources, ?_, hnames, hmatch⟩
  have hprogram : Generator.annotated.program c = .addAll sources := by
    simp only [Generator.annotated, hok]
  have hnodup : (sources.map (·.hintName)).Nodup := hnames ▸ Batch.fileNames_nodup _ _
  rw [hprogram, Pass.run_addAll (fun _ _ => rfl) hnodup, List.nil_append]

/-- Exactly the completable methods of a compilation are completed. There is one record for
each of them, in file order and in pre-order within a file, where the pre-order of a file
holds each of its nodes once; and a pass on its own succeeds with exactly the fragments of
the records, in their order. -/
theorem records_exactly_completable (c : Compilation) :
    List.Forall₂ c.IsRecordOf (c.preorder.filter fun n => c.Completable n) c.records ∧
      (∀ t ∈ c.trees, (t.preorder t.root).Nodup ∧ ∀ i, i ∈ t.preorder t.root) ∧
      ∃ sources,
        Pass.run { generator := Generator.annotated.name } (Generator.annotated.program c) =
          ({ generator := Generator.annotated.name, sources := sources }, .ok ()) ∧
        List.Forall₂ (fun r f => r.fragment f.hintName = .ok f) c.records sources := by
  refine ⟨c.records_forall₂, fun t _ => ⟨Tree.preorder_nodup t.root, Tree.mem_preorder_root⟩, ?_⟩
  obtain ⟨sources, hrun, -, hmatch⟩ := c.run_annotated
  exact ⟨sources, hrun, hmatch⟩

end Compilation

end StubGen
