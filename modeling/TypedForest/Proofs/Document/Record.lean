import TypedForest.Document.Export
import TypedForest.Proofs.Naming.Structural
import TypedForest.Proofs.Schema.Faithful

/-!
# Exported documents

The export of a tree in closed form.  In a sound forest nothing can go wrong as
long as the schema has a pointer for every type: the tree passes its check, all
its nodes get identifiers, and children of its nodes belong to it.  So a record
lists the public facets of its node in order, split by kind, and a document lists
the records in the order of the traversal.

## Main Definitions

* `Forest.treeName?`: the identifier of a node of the exported tree.
* `Schema.Covers`: the schema has pointers for what occurs in a tree.
* `Schema.Resolves`: the schema has complete pointers for the types in a tree.
* `Document.recordFor`, `Document.ofTree`: record and document, in closed form.

## Main Results

* `Document.exportTree_of_resolves`: exporting succeeds with that document as soon
  as all types have pointers.
* `Document.exportTree_eq`: so it does if the tree is covered.
-/

namespace TypedForest

/-- The identifier of a node of the tree below `root`; other nodes have none. -/
def Forest.treeName? (f : Forest) (space : String) (root node : NodeId) : Option String :=
  if node ∈ f.preorder root then some (f.structuralId space node) else none

/-- The type of a node. -/
def Forest.typeOf (f : Forest) (node : NodeId) : String :=
  ((f.get? node).map Node.type).getD ""

section

variable {σ : Type} [Schema σ]

/-- The schema has a pointer for every type that occurs in the tree below `root`,
and for every public property of these types. -/
def Schema.Covers (schema : σ) (f : Forest) (root : NodeId) : Prop :=
  ∀ node ∈ f.preorder root, ∀ t, f.metamodel.type (f.typeOf node) = .ok t →
    (Schema.ofType? schema (f.typeOf node)).isSome ∧
      ∀ p ∈ t.effective, p.isPublic = true →
        (Schema.ofProperty? schema (f.typeOf node) p.name).isSome

/-- The search for something without a pointer. -/
def Schema.checkCover (schema : σ) (f : Forest) (root : NodeId) : Bool :=
  (f.preorder root).all fun node =>
    match f.metamodel.type (f.typeOf node) with
    | .error _ => true
    | .ok t => (Schema.ofType? schema (f.typeOf node)).isSome &&
        t.effective.all fun p =>
          !p.isPublic || (Schema.ofProperty? schema (f.typeOf node) p.name).isSome

theorem Schema.checkCover_iff {schema : σ} {f : Forest} {root : NodeId} :
    Schema.checkCover schema f root = true ↔ Schema.Covers schema f root := by
  rw [Schema.checkCover, List.all_eq_true, Schema.Covers]
  refine forall₂_congr fun node _ => ?_
  cases f.metamodel.type (f.typeOf node) with
  | error e => simp
  | ok t =>
      have himp : ∀ a b : Bool, (!a || b) = true ↔ (a = true → b = true) := by decide
      simp only [Bool.and_eq_true, List.all_eq_true, himp]
      exact ⟨fun h t' ht => Except.ok.inj ht ▸ h, fun h => h t rfl⟩

instance (schema : σ) (f : Forest) (root : NodeId) : Decidable (Schema.Covers schema f root) :=
  decidable_of_iff _ Schema.checkCover_iff

/-- The schema has a complete pointer for every type that occurs in the tree below
`root`. -/
def Schema.Resolves (schema : σ) (f : Forest) (root : NodeId) : Prop :=
  ∀ node ∈ f.preorder root, ∃ concept,
    Schema.ofType? schema (f.typeOf node) = some concept ∧ concept.isResolved = true

/-- The pointer that a property is written with. -/
def Schema.pointer (schema : σ) (type property : String) : Pointer :=
  (Schema.ofProperty? schema type property).getD .unresolved

namespace Document

variable (schema : σ) (name? : NodeId → Option String) (type : String)

/-- The entry of an attribute. -/
def asProperty? (facet : Facet) : Option PropertyEntry :=
  match facet.slot with
  | .value v => some ⟨Schema.pointer schema type facet.property.name, v.wire⟩
  | _ => none

/-- The entry of a containment. -/
def asContainment? (facet : Facet) : Option ContainmentEntry :=
  if facet.slot.kind.isContainment then
    some ⟨Schema.pointer schema type facet.property.name, facet.slot.owned.filterMap name?⟩
  else none

/-- The entry of a reference. -/
def asReference? (facet : Facet) : Option ReferenceEntry :=
  match facet.slot with
  | .reference r => some ⟨Schema.pointer schema type facet.property.name,
      r.toList.map fun t => ⟨some t.name, t.target.bind name?⟩⟩
  | _ => none

/-- The record of a node of the tree below `root`. -/
def recordFor (f : Forest) (root node : NodeId) : Record where
  id := (name? node).getD ""
  concept := (Schema.ofType? schema (f.typeOf node)).getD .unresolved
  properties := (f.visible node).filterMap (asProperty? schema (f.typeOf node))
  children := (f.visible node).filterMap (asContainment? schema name? (f.typeOf node))
  references := (f.visible node).filterMap (asReference? schema name? (f.typeOf node))
  parent := if node = root then none else (f.parent? node).bind name?

/-- The document of the tree below `root`, with its records in a given order of the
nodes.  Languages are listed in the order of the traversal. -/
def ofTree (space : String) (f : Forest) (root : NodeId) (order : List NodeId) : Document where
  languages := firstUses ((f.preorder root).map fun node =>
    (recordFor schema (f.treeName? space root) f root node).language)
  records := order.map (recordFor schema (f.treeName? space root) f root)

end Document

end

/-! ### Visible facets -/

namespace Forest

variable {f : Forest}

/-- In a sound forest every node has its facets. -/
theorem Sound.publicFacets_eq_visible (hf : f.Sound) {id : NodeId} (hid : (f.get? id).isSome) :
    f.publicFacets id = .ok (f.visible id) := by
  obtain ⟨n, hn⟩ := Option.isSome_iff_exists.mp hid
  obtain ⟨t, ht, -⟩ := hf.wellTyped hn
  rw [visible_of_get? hn ht, publicFacets_of_get? hn ht]

theorem typeOf_of_get? {id : NodeId} {n : Node} (hn : f.get? id = some n) :
    f.typeOf id = n.type := by
  simp [typeOf, hn]

end Forest

/-! ### Records in closed form -/

namespace Document

variable {σ : Type} [Schema σ] {schema : σ} {f : Forest}

theorem mapM_idOf {ids : Naming} {nodes : List NodeId}
    (h : ∀ node ∈ nodes, (ids.get? node).isSome) :
    nodes.mapM (idOf f ids) = .ok (nodes.filterMap ids.get?) := by
  induction nodes with
  | nil => rfl
  | cons node nodes ih =>
      obtain ⟨id, hid⟩ := Option.isSome_iff_exists.mp (h node List.mem_cons_self)
      have htail := ih fun other hother => h other (List.mem_cons_of_mem _ hother)
      rw [List.mapM_cons, htail, List.filterMap_cons_some hid]
      simp [idOf, hid, bind, Except.bind, pure, Except.pure]

/-- A facet enters the record in the part for its kind. -/
theorem enterFacet_eq {ids : Naming} (type : String) (r : Record) {facet : Facet}
    (h : ∀ c ∈ facet.slot.owned, (ids.get? c).isSome) :
    enterFacet schema f ids type r facet = .ok { r with
      properties := r.properties ++ (asProperty? schema type facet).toList
      children := r.children ++ (asContainment? schema ids.get? type facet).toList
      references := r.references ++ (asReference? schema ids.get? type facet).toList } := by
  obtain ⟨property, slot⟩ := facet
  have hmap := mapM_idOf (f := f) h
  cases slot with
  | value v => simp [enterFacet, asProperty?, asContainment?, asReference?, Slot.kind,
      Kind.isContainment, Schema.pointer]
  | reference ref => simp [enterFacet, asProperty?, asContainment?, asReference?,
      Slot.kind, Kind.isContainment, Schema.pointer]
  | child _ | children _ | ignored =>
      unfold enterFacet
      simp only at hmap ⊢
      rw [hmap]
      simp [bind, Except.bind, pure, Except.pure, asProperty?, asContainment?,
        asReference?, Slot.kind, Kind.isContainment, Schema.pointer]

theorem filterMap_cons_toList {α β : Type} (g : α → Option β) (a : α) (l : List α) :
    (a :: l).filterMap g = (g a).toList ++ l.filterMap g := by
  cases h : g a with
  | none => rw [List.filterMap_cons_none h]; rfl
  | some b => rw [List.filterMap_cons_some h]; rfl

theorem foldlM_enterFacet {ids : Naming} (type : String) (facets : List Facet) (r : Record)
    (h : ∀ facet ∈ facets, ∀ c ∈ facet.slot.owned, (ids.get? c).isSome) :
    facets.foldlM (enterFacet schema f ids type) r = .ok { r with
      properties := r.properties ++ facets.filterMap (asProperty? schema type)
      children := r.children ++ facets.filterMap (asContainment? schema ids.get? type)
      references := r.references ++ facets.filterMap (asReference? schema ids.get? type) } := by
  induction facets generalizing r with
  | nil => simp [pure, Except.pure]
  | cons facet facets ih =>
      rw [List.foldlM_cons, enterFacet_eq type r (h facet List.mem_cons_self)]
      show facets.foldlM _ _ = _
      rw [ih _ fun other hother => h other (List.mem_cons_of_mem _ hother)]
      simp only [filterMap_cons_toList, List.append_assoc]

variable {space : String} {root node : NodeId}

theorem treeName?_of_mem (h : node ∈ f.preorder root) :
    f.treeName? space root node = some (f.structuralId space node) :=
  if_pos h

/-- The record of a node whose type has a pointer. -/
theorem recordOf_eq {ids : Naming} (hids : ids.get? = f.treeName? space root) (hf : f.Sound)
    (hresolves : Schema.Resolves schema f root) (hnode : node ∈ f.preorder root) :
    recordOf schema f ids root node =
      .ok (recordFor schema (f.treeName? space root) f root node) := by
  obtain ⟨n, hn⟩ := Option.isSome_iff_exists.mp (hf.exists_of_mem_preorder hnode)
  obtain ⟨t, ht, -, -⟩ := hf.wellTyped hn
  have htype : f.typeOf node = n.type := Forest.typeOf_of_get? hn
  obtain ⟨concept, hconcept, hresolved⟩ := hresolves node hnode
  have hvisible := Forest.visible_of_get? hn ht
  -- What a visible facet owns belongs to the tree and has a name.
  have hnamed : ∀ facet ∈ f.visible node, ∀ c ∈ facet.slot.owned, (ids.get? c).isSome := by
    intro facet hfacet c hc
    have hchild := Forest.mem_children_of_mem_owned hfacet hc
    rw [hids, treeName?_of_mem (hf.mem_preorder_of_mem_children hnode hchild)]
    rfl
  rw [htype] at hconcept
  rw [recordOf, Forest.node, hn]
  simp only [bind, Except.bind, hconcept, Option.filter_some, hresolved, if_true]
  rw [idOf, hids, treeName?_of_mem hnode]
  simp only
  rw [Forest.publicFacets_of_get? hn ht, ← hvisible]
  simp only
  rw [foldlM_enterFacet _ _ _ hnamed, hids]
  simp only [recordFor, htype, hconcept, Option.getD_some, treeName?_of_mem hnode,
    List.nil_append, Forest.parent?_of_get? hn]

/-- In a tree, export comes down to the records of the nodes. -/
theorem exists_exportTree_eq (hf : f.Sound) (hm : f.metamodel.Built) (schema : σ)
    (space : String) (hroot : (f.get? root).isSome) :
    ∃ ids : Naming, ids.get? = f.treeName? space root ∧
      exportTree schema space f root = (do
        let records ← (f.preorder root).mapM (recordOf schema f ids root)
        return { languages := firstUses (records.map Record.language), records }) := by
  obtain ⟨ids, hrun, hget⟩ := hf.exists_assignIds hm space .preorder hroot
  refine ⟨ids, funext hget, ?_⟩
  have hassign : f.assignIds root (f.preorder root) (.structural space) () = .ok ids () := hrun
  rw [exportTree, hf.checkTree_eq hroot, hassign]
  rfl

/-- **Exporting a tree whose types have pointers succeeds**, with the records of its
nodes in the order of the traversal. -/
theorem exportTree_of_resolves (hf : f.Sound) (hm : f.metamodel.Built)
    (hroot : (f.get? root).isSome) (hresolves : Schema.Resolves schema f root) :
    exportTree schema space f root = .ok (ofTree schema space f root (f.preorder root)) := by
  obtain ⟨ids, hids, hexport⟩ := exists_exportTree_eq hf hm schema space hroot
  have hrecords : (f.preorder root).mapM (recordOf schema f ids root) =
      .ok ((f.preorder root).map (recordFor schema (f.treeName? space root) f root)) :=
    mapM_eq_ok fun node hnode => recordOf_eq hids hf hresolves hnode
  rw [hexport, hrecords]
  simp only [bind, Except.bind, pure, Except.pure, ofTree, List.map_map]
  rfl

/-- A faithful schema gives out complete pointers only. -/
theorem resolves_of_covers (hf : f.Sound) (hschema : Schema.Faithful schema)
    (hcovers : Schema.Covers schema f root) : Schema.Resolves schema f root := by
  intro node hnode
  obtain ⟨n, hn⟩ := Option.isSome_iff_exists.mp (hf.exists_of_mem_preorder hnode)
  obtain ⟨t, ht, -, -⟩ := hf.wellTyped hn
  rw [← Forest.typeOf_of_get? hn] at ht
  obtain ⟨concept, hconcept⟩ := Option.isSome_iff_exists.mp (hcovers node hnode t ht).1
  exact ⟨concept, hconcept, (hschema.type_eq hconcept).1⟩

/-- **Exporting a covered tree succeeds.** -/
theorem exportTree_eq (hf : f.Sound) (hm : f.metamodel.Built)
    (hschema : Schema.Faithful schema) (hroot : (f.get? root).isSome)
    (hcovers : Schema.Covers schema f root) :
    exportTree schema space f root = .ok (ofTree schema space f root (f.preorder root)) :=
  exportTree_of_resolves hf hm hroot (resolves_of_covers hf hschema hcovers)

end Document

end TypedForest
