import TypedForest.Document.Import
import TypedForest.Proofs.Document.Record
import TypedForest.Proofs.Value.Wire

/-!
# The image of a tree in the making

A document is read into a forest whose nodes are numbered by the order of the
records.  The image of a slot is what reading makes of it: values are read back,
children and targets of references are renumbered, and a target outside of the
tree is forgotten.

The second pass fills slots one by one, so that in between some slots are as
created, some have got their image, and one list of children may be half done.
`Partway` describes all these forests alike, by what each slot holds at the
moment.  The point of it is that whatever is owned so far is the image of
something owned in the tree.  Hence no filling can close a cycle or give a node a
second owner, whatever the order of the records.

## Main Definitions

* `Document.Source`: a tree that can be written, and an order of its nodes.
* `Document.number`, `Document.image`: the images of nodes and slots.
* `Document.Partway`: a forest in the making.

## Main Results

* `Source.createNodes_eq`: the outcome of the first pass.
* `Partway.adoptable`: a child that is not in place yet may be put there.
* `Partway.step`: the effect of an edit on the forest in the making.
-/

namespace TypedForest

/-- The effective properties of the type of a node. -/
def Forest.table (f : Forest) (node : NodeId) : List Property :=
  (((f.metamodel.type (f.typeOf node)).toOption).map NodeType.effective).getD []

namespace Document

/-- A tree that can be written under the schema, and an order of its nodes. -/
structure Source {σ : Type} [Schema σ] (schema : σ) (f : Forest) (root : NodeId)
    (order : List NodeId) : Prop where
  sound : f.Sound
  built : f.metamodel.Built
  faithful : Schema.Faithful schema
  exists_root : (f.get? root).isSome
  covers : Schema.Covers schema f root
  perm : (f.preorder root).Perm order

/-- The number of a node in the forest that is read. -/
def number (order : List NodeId) (node : NodeId) : NodeId := ⟨order.idxOf node⟩

/-- What reading makes of a reference. -/
def imageRef (order : List NodeId) (t : NamedRef) : NamedRef :=
  ⟨t.name, (t.target.filter fun c => c ∈ order).map (number order)⟩

/-- What reading makes of a slot of an attribute, containment or reference. -/
def image (order : List NodeId) (facet : Facet) : Slot :=
  match facet.slot with
  | .value v => .value ((v.reread facet.property.valueType).getD .null)
  | .child c => .child (c.map (number order))
  | .children cs => .children (some ((cs.getD []).map (number order)))
  | .ignored => .children (some [])
  | .reference r => .reference (r.map (imageRef order))

theorem kind_image (order : List NodeId) (facet : Facet) :
    (image order facet).kind = facet.slot.kind := by
  unfold image
  cases facet.slot <;> rfl

theorem owned_image (order : List NodeId) (facet : Facet) :
    (image order facet).owned = facet.slot.owned.map (number order) := by
  obtain ⟨property, slot⟩ := facet
  unfold image
  cases slot with
  | child c => cases c <;> rfl
  | children cs => cases cs <;> rfl
  | value v => rfl
  | ignored => rfl
  | reference r => rfl

/-! ### Nodes of the tree -/

namespace Source

variable {σ : Type} [Schema σ] {schema : σ} {f : Forest} {root : NodeId} {order : List NodeId}
  {v c : NodeId} {facet : Facet}

theorem nodup (h : Source schema f root order) : order.Nodup :=
  h.perm.nodup_iff.mp (h.sound.nodup_preorder root)

theorem mem_preorder (h : Source schema f root order) (hv : v ∈ order) : v ∈ f.preorder root :=
  h.perm.mem_iff.mpr hv

/-- The node, its type and its table of properties. -/
theorem exists_node (h : Source schema f root order) (hv : v ∈ order) :
    ∃ n t, f.get? v = some n ∧ f.metamodel.type n.type = .ok t ∧ t.isAbstract = false ∧
      f.Fits n t ∧ f.typeOf v = n.type ∧ f.table v = t.effective := by
  obtain ⟨n, hn⟩ := Option.isSome_iff_exists.mp (h.sound.exists_of_mem_preorder (h.mem_preorder hv))
  obtain ⟨t, ht, hconcrete, hfits⟩ := h.sound.wellTyped hn
  have htype := Forest.typeOf_of_get? hn
  refine ⟨n, t, hn, ht, hconcrete, hfits, htype, ?_⟩
  rw [Forest.table, htype, ht]
  rfl

theorem nodup_table (h : Source schema f root order) (hv : v ∈ order) :
    ((f.table v).map Property.name).Nodup := by
  obtain ⟨n, t, -, ht, -, -, -, htable⟩ := h.exists_node hv
  rw [htable]
  exact h.built.nodup_names ht

/-- A visible facet belongs to a public property in the table. -/
theorem site_of_mem_visible (h : Source schema f root order) (hv : v ∈ order)
    (hfacet : facet ∈ f.visible v) :
    ∃ (n : Node) (j : Nat), f.get? v = some n ∧ (f.table v)[j]? = some facet.property ∧
      n.slots[j]? = some facet.slot ∧ facet.property.isPublic = true ∧
      f.Accepts facet.property facet.slot := by
  obtain ⟨n, t, hn, ht, -, hfits, -, htable⟩ := h.exists_node hv
  rw [Forest.visible_of_get? hn ht] at hfacet
  obtain ⟨hmem, hpublic⟩ := List.mem_filter.mp hfacet
  obtain ⟨j, hp, hs⟩ := Forest.mem_zipWith_facet.mp hmem
  exact ⟨n, j, hn, htable ▸ hp, hs, hpublic, hfits.accepts hp hs⟩

theorem accepts (h : Source schema f root order) (hv : v ∈ order)
    (hfacet : facet ∈ f.visible v) : f.Accepts facet.property facet.slot := by
  obtain ⟨-, -, -, -, -, -, haccepts⟩ := h.site_of_mem_visible hv hfacet
  exact haccepts

theorem mem_table (h : Source schema f root order) (hv : v ∈ order)
    (hfacet : facet ∈ f.visible v) : facet.property ∈ f.table v := by
  obtain ⟨-, _, -, hp, -⟩ := h.site_of_mem_visible hv hfacet
  exact List.mem_of_getElem? hp

/-- What a visible facet owns is a child, and it belongs to the tree. -/
theorem child_of_mem_owned (h : Source schema f root order) (hv : v ∈ order)
    (hfacet : facet ∈ f.visible v) (hc : c ∈ facet.slot.owned) :
    c ∈ f.children v ∧ c ∈ order := by
  have hchild := Forest.mem_children_of_mem_owned hfacet hc
  exact ⟨hchild, h.perm.mem_iff.mp
    (h.sound.mem_preorder_of_mem_children (h.mem_preorder hv) hchild)⟩

/-- No visible facet owns a node twice. -/
theorem nodup_owned (h : Source schema f root order) (hv : v ∈ order)
    (hfacet : facet ∈ f.visible v) : facet.slot.owned.Nodup := by
  obtain ⟨n, j, hn, -, hs, -, -⟩ := h.site_of_mem_visible hv hfacet
  exact (Node.nodup_owned_iff.mp (h.sound.wellFormed.nodup hn)).1 hs

/-- Visible facets have distinct names. -/
theorem nodup_visible (h : Source schema f root order) (hv : v ∈ order) :
    ((f.visible v).map fun facet => facet.property.name).Nodup := by
  obtain ⟨n, t, hn, ht, -, hfits, -, htable⟩ := h.exists_node hv
  have hproperties := Forest.map_property_zipWith hfits.length_eq
  have hnames : ((t.effective.zipWith Facet.mk n.slots).map
      fun facet => facet.property.name) = t.effective.map Property.name := by
    nth_rewrite 2 [← hproperties]
    rw [List.map_map]
    rfl
  rw [Forest.visible_of_get? hn ht]
  refine List.Nodup.sublist (List.Sublist.map _ List.filter_sublist) ?_
  rw [hnames]
  exact h.built.nodup_names ht

theorem number_injective (hv : v ∈ order) (hnumber : number order v = number order c) : v = c :=
  (List.idxOf_inj hv).mp (congrArg NodeId.index hnumber)

/-- Every number below the length of the order is that of a node. -/
theorem exists_number (h : Source schema f root order) {i : NodeId} (hi : i.index < order.length) :
    ∃ v ∈ order, number order v = i := by
  refine ⟨order[i.index], List.getElem_mem hi, ?_⟩
  rw [number, h.nodup.idxOf_getElem i.index hi]

end Source

/-! ### The first pass -/

/-- The entry of a node in the table of identifiers. -/
def entryFor (space : String) (f : Forest) (order : List NodeId) (v : NodeId) : Entry :=
  ⟨f.structuralId space v, f.typeOf v, number order v⟩

/-- Nodes as they are created: of the right types, with empty slots. -/
def blank (f : Forest) (order nodes : List NodeId) : Forest where
  metamodel := f.metamodel
  nodes := nodes.map fun v =>
    { id := number order v, type := f.typeOf v,
      slots := (f.table v).map fun p => Slot.empty p.kind }

/-- Where each record leads to the node at its own place, look-ups by identifier pair
records and entries by their places, and leave none out. -/
theorem entered_eq_zip {entries : List Entry} {records : List Record}
    (h : ∀ pair ∈ records.zip entries, nodeOf? entries pair.1.id = some pair.2.node) :
    entered entries records = records.zip entries := by
  have hsome : ∀ pair ∈ records.zip entries,
      (nodeOf? entries pair.1.id).map (fun node => (pair.1, { pair.2 with node })) = some pair := by
    intro pair hpair
    rw [h pair hpair]
    rfl
  rw [entered, List.filterMap_congr hsome, List.filterMap_some]

namespace Source

variable {σ : Type} [Schema σ] {schema : σ} {f : Forest} {root : NodeId} {order : List NodeId}
  {space : String} {v : NodeId}

/-- Identifiers determine the nodes of the tree. -/
theorem structuralId_inj (h : Source schema f root order) (space : String) {u : NodeId}
    (hu : u ∈ order) (hv : v ∈ order) :
    f.structuralId space u = f.structuralId space v ↔ u = v := by
  constructor
  · refine h.sound.structuralId_injective h.built ?_
    rw [h.sound.topmost_of_mem_preorder (h.mem_preorder hu),
      h.sound.topmost_of_mem_preorder (h.mem_preorder hv)]
  · rintro rfl
    rfl

/-- Identifiers lead to the nodes that have been entered. -/
theorem nodeOf?_eq (h : Source schema f root order) {nodes : List NodeId}
    (hsub : nodes ⊆ order) (hv : v ∈ order) :
    nodeOf? (nodes.map (entryFor space f order)) (f.structuralId space v) =
      if v ∈ nodes then some (number order v) else none := by
  induction nodes with
  | nil => rfl
  | cons u nodes ih =>
      obtain ⟨hu, hsub⟩ := List.cons_subset.mp hsub
      have hinj := h.structuralId_inj space hu hv
      by_cases huv : u = v
      · subst huv
        simp [nodeOf?, entryFor]
      · have hne : ¬ f.structuralId space u = f.structuralId space v := fun heq => huv (hinj.mp heq)
        have hcons : nodeOf? ((u :: nodes).map (entryFor space f order)) (f.structuralId space v) =
            nodeOf? (nodes.map (entryFor space f order)) (f.structuralId space v) := by
          simp [nodeOf?, entryFor, hne]
        rw [hcons, ih hsub]
        simp [Ne.symm huv]

theorem not_mem_of_append (h : Source schema f root order) {done rest : List NodeId}
    (horder : order = done ++ v :: rest) : v ∉ done := by
  have hnodup := h.nodup
  rw [horder] at hnodup
  exact not_mem_of_nodup_append hnodup

/-- The next blank node gets the next number. -/
theorem blank_append (h : Source schema f root order) {done rest : List NodeId}
    (horder : order = done ++ v :: rest) :
    number order v = ⟨done.length⟩ ∧ ∃ t, f.metamodel.type (f.typeOf v) = .ok t ∧
      t.isAbstract = false ∧
      (Effect.created (f.typeOf v) (t.effective.map fun p => Slot.empty p.kind)).apply
        (blank f order done) = blank f order (done ++ [v]) := by
  have hnumber : number order v = ⟨done.length⟩ := by
    rw [number, horder, List.idxOf_append_of_notMem (h.not_mem_of_append horder),
      List.idxOf_cons_self, Nat.add_zero]
  obtain ⟨n, t, -, ht, hconcrete, -, htype, htable⟩ := h.exists_node (v := v) (by simp [horder])
  refine ⟨hnumber, t, htype ▸ ht, hconcrete, ?_⟩
  simp [Effect.apply, blank, Forest.size, hnumber, htable]

/-- The next node gets the number of its record. -/
theorem createNode_eq (h : Source schema f root order) {done rest : List NodeId}
    (horder : order = done ++ v :: rest) :
    createNode schema (done.map (entryFor space f order))
        (recordFor schema (f.treeName? space root) f root v) (blank f order done) =
      .ok ((done ++ [v]).map (entryFor space f order)) (blank f order (done ++ [v])) := by
  have hv : v ∈ order := by simp [horder]
  obtain ⟨hnumber, t, ht, hconcrete, hblank⟩ := h.blank_append horder
  obtain ⟨hpointer, -⟩ := h.covers v (h.mem_preorder hv) t ht
  obtain ⟨concept, hconcept⟩ := Option.isSome_iff_exists.mp hpointer
  have hback := (h.faithful.type_eq hconcept).2
  have hcreate := Edit.create_of_concrete (f := blank f order done) ht hconcrete
  have hsize : (blank f order done).size = done.length := by simp [blank, Forest.size]
  have hfree : nodeOf? (done.map (entryFor space f order)) (f.structuralId space v) = none := by
    rw [h.nodeOf?_eq (fun u hu => by rw [horder]; exact List.mem_append_left _ hu) hv,
      if_neg (h.not_mem_of_append horder)]
  -- The concept leads back to the type, and the identifier is not taken.
  rw [createNode]
  simp only [recordFor, hconcept, Option.getD_some, hback, treeName?_of_mem (h.mem_preorder hv)]
  rw [bind_of_ok _ hcreate, hfree, hblank, hsize]
  simp [entryFor, hnumber, pure, EStateM.pure]

/-- **The first pass makes a blank node of each record.** -/
theorem createNodes_eq (h : Source schema f root order) :
    createNodes schema (order.map (recordFor schema (f.treeName? space root) f root))
        { metamodel := f.metamodel } =
      .ok (order.map (entryFor space f order)) (blank f order order) := by
  suffices hrun : ∀ rest done : List NodeId, order = done ++ rest →
      (rest.map (recordFor schema (f.treeName? space root) f root)).foldlM (createNode schema)
          (done.map (entryFor space f order)) (blank f order done) =
        .ok (order.map (entryFor space f order)) (blank f order order) from
    hrun order [] rfl
  intro rest
  induction rest with
  | nil =>
      intro done horder
      rw [List.append_nil] at horder
      subst horder
      rfl
  | cons v rest ih =>
      intro done horder
      rw [List.map_cons, List.foldlM_cons, bind_of_ok _ (h.createNode_eq horder)]
      exact ih (done ++ [v]) (by simpa using horder)

/-- Blank nodes form a sound forest. -/
theorem sound_blank (h : Source schema f root order) : (blank f order order).Sound := by
  suffices hrun : ∀ rest done : List NodeId, order = done ++ rest →
      (blank f order done).Sound → (blank f order order).Sound from
    hrun order [] rfl (Forest.sound_empty f.metamodel)
  intro rest
  induction rest with
  | nil =>
      intro done horder hsound
      rw [List.append_nil] at horder
      rwa [← horder] at hsound
  | cons v rest ih =>
      intro done horder hsound
      obtain ⟨-, t, ht, hconcrete, hblank⟩ := h.blank_append horder
      refine ih (done ++ [v]) (by simpa using horder) ?_
      rw [← hblank]
      exact Effect.sound_apply hsound ⟨t, ht, hconcrete, rfl⟩

end Source

/-! ### Forests in the making -/

/-- Contents of slots with one of them replaced. -/
def put (fill : NodeId → String → Slot) (v : NodeId) (name : String) (slot : Slot) :
    NodeId → String → Slot :=
  fun u x => if u = v ∧ x = name then slot else fill u x

theorem put_self (fill : NodeId → String → Slot) (v : NodeId) (name : String) (slot : Slot) :
    put fill v name slot v name = slot :=
  if_pos ⟨rfl, rfl⟩

theorem put_of_ne (fill : NodeId → String → Slot) {v u : NodeId} {name x : String} (slot : Slot)
    (h : ¬ (u = v ∧ x = name)) : put fill v name slot u x = fill u x :=
  if_neg h

theorem put_eq_self (fill : NodeId → String → Slot) (v : NodeId) (name : String) :
    put fill v name (fill v name) = fill := by
  funext u x
  by_cases h : u = v ∧ x = name
  · obtain ⟨rfl, rfl⟩ := h
    exact put_self fill u x _
  · exact put_of_ne fill _ h

theorem put_put (fill : NodeId → String → Slot) (v : NodeId) (name : String) (s t : Slot) :
    put (put fill v name s) v name t = put fill v name t := by
  funext u x
  simp only [put]
  split <;> rfl

/-- The forest has a node for each node of the tree, in order; its slots hold what
`fill` says, and whatever they own is the image of something owned in the tree. -/
structure Partway (f : Forest) (order : List NodeId) (g : Forest)
    (fill : NodeId → String → Slot) : Prop where
  sound : g.Sound
  metamodel_eq : g.metamodel = f.metamodel
  size_eq : g.size = order.length
  node : ∀ v ∈ order, ∃ parent, g.get? (number order v) =
    some { id := number order v, type := f.typeOf v, parent,
           slots := (f.table v).map fun p => fill v p.name }
  within : ∀ v ∈ order, ∀ p ∈ f.table v, ∀ d ∈ (fill v p.name).owned,
    ∃ facet ∈ f.visible v, facet.property.name = p.name ∧
      ∃ c ∈ facet.slot.owned, d = number order c

namespace Partway

variable {σ : Type} [Schema σ] {schema : σ} {f g : Forest} {root : NodeId} {order : List NodeId}
  {fill : NodeId → String → Slot} {v c : NodeId} {facet : Facet}

/-- Whatever is owned is the image of something owned. -/
theorem exists_of_owns (hg : Partway f order g fill) (h : Source schema f root order)
    {q d : NodeId} (howns : g.Owns q d) :
    ∃ u ∈ order, q = number order u ∧ ∃ p ∈ f.table u, d ∈ (fill u p.name).owned ∧
      ∃ facet ∈ f.visible u, facet.property.name = p.name ∧
        ∃ c ∈ facet.slot.owned, d = number order c := by
  obtain ⟨u, hu, rfl⟩ := h.exists_number
    (i := q) (hg.size_eq ▸ (g.get?_isSome_iff q).mp howns.isSome_owner)
  obtain ⟨k, hk, hd⟩ := howns
  obtain ⟨parent, hnode⟩ := hg.node u hu
  obtain rfl := Option.some.inj (hk.symm.trans hnode)
  obtain ⟨j, s, hs, hd⟩ := Node.mem_owned.mp hd
  rw [List.getElem?_map, Option.map_eq_some_iff] at hs
  obtain ⟨p, hp, rfl⟩ := hs
  have hmem := List.mem_of_getElem? hp
  exact ⟨u, hu, rfl, p, hmem, hd, hg.within u hu p hmem d hd⟩

/-- A parent is the image of the parent in the tree. -/
theorem exists_of_isParent (hg : Partway f order g fill) (h : Source schema f root order)
    {q : NodeId} (hv : v ∈ order) (hup : g.IsParent (number order v) q) :
    ∃ u ∈ order, q = number order u ∧ f.IsParent v u := by
  obtain ⟨u, hu, rfl, -, -, -, facet, hfacet, -, c, hc, hnumber⟩ :=
    hg.exists_of_owns h (hg.sound.wellFormed.parent_iff.mp hup)
  obtain rfl : v = c := Source.number_injective hv hnumber
  exact ⟨u, hu, rfl, h.sound.parent?_of_mem_children (h.child_of_mem_owned hu hfacet hc).1⟩

/-- What is above in the forest in the making is above in the tree. -/
theorem above_of_above (hg : Partway f order g fill) (h : Source schema f root order)
    {q : NodeId} (hv : v ∈ order) (hup : Relation.ReflTransGen g.IsParent (number order v) q) :
    ∃ u ∈ order, q = number order u ∧ Relation.ReflTransGen f.IsParent v u := by
  induction hup with
  | refl => exact ⟨v, hv, rfl, .refl⟩
  | tail _ hstep ih =>
      obtain ⟨u, hu, rfl, hvu⟩ := ih
      obtain ⟨w, hw, rfl, huw⟩ := hg.exists_of_isParent h hu hstep
      exact ⟨w, hw, rfl, hvu.tail huw⟩

/-- **A child that is not in place yet may be put there**: it is free, it is of the
right type, and it is not above its parent. -/
theorem adoptable (hg : Partway f order g fill) (h : Source schema f root order)
    (hv : v ∈ order) (hfacet : facet ∈ f.visible v) (hc : c ∈ facet.slot.owned)
    (hnew : number order c ∉ (fill v facet.property.name).owned) :
    g.Adoptable (number order v) facet.property (number order c) := by
  obtain ⟨hchild, hcorder⟩ := h.child_of_mem_owned hv hfacet hc
  obtain ⟨n, j, hn, hp, hs, -, haccepts⟩ := h.site_of_mem_visible hv hfacet
  obtain ⟨k, t, hk, -, -, -, htype, -⟩ := h.exists_node hcorder
  obtain ⟨parent, hnode⟩ := hg.node c hcorder
  refine ⟨⟨_, hnode, ?_, ?_⟩, ?_⟩
  · -- Whoever owned the image would own the child in the same slot.
    by_contra hparent
    obtain ⟨q, hq⟩ := Option.ne_none_iff_exists'.mp hparent
    have hup : g.parent? (number order c) = some q := by
      rw [Forest.parent?_of_get? hnode]
      exact hq
    obtain ⟨u, hu, rfl, p, -, hd, facet', hfacet', hname, c', hc', hnumber⟩ :=
      hg.exists_of_owns h (hg.sound.wellFormed.parent_iff.mp hup)
    obtain rfl : c = c' := Source.number_injective hcorder hnumber
    have hparent' := h.sound.parent?_of_mem_children (h.child_of_mem_owned hu hfacet' hc').1
    obtain rfl : v = u :=
      Option.some.inj ((h.sound.parent?_of_mem_children hchild).symm.trans hparent')
    obtain ⟨n', j', hn', hp', hs', -, -⟩ := h.site_of_mem_visible hv hfacet'
    obtain rfl : n = n' := Option.some.inj (hn.symm.trans hn')
    obtain rfl : j = j' := h.sound.wellFormed.slot_unique hn hs hs' hc hc'
    have hproperty : facet.property = facet'.property := Option.some.inj (hp.symm.trans hp')
    rw [← hname, ← hproperty] at hd
    exact hnew hd
  · intro expected hexpected
    rw [hg.metamodel_eq, htype]
    exact haccepts.child_ok c hc k hk expected hexpected
  · -- A child above its parent would be above it in the tree, too.
    intro hup
    obtain ⟨u, hu, hnumber, hvu⟩ := hg.above_of_above h hv hup
    obtain rfl : c = u := Source.number_injective hcorder hnumber
    exact h.sound.wellFormed.acyclic c (.head' (h.sound.parent?_of_mem_children hchild) hvu)

/-- A property is found at its place in the table. -/
theorem exists_locate (hg : Partway f order g fill) (h : Source schema f root order)
    (hv : v ∈ order) (hfacet : facet ∈ f.visible v) :
    ∃ j : Nat, (f.table v)[j]? = some facet.property ∧
      g.locate (number order v) facet.property.name facet.property.kind =
        .ok ⟨j, facet.property⟩ := by
  obtain ⟨n, j, -, hp, -, -, -⟩ := h.site_of_mem_visible hv hfacet
  obtain ⟨k, t, -, ht, -, -, htype, htable⟩ := h.exists_node hv
  obtain ⟨parent, hnode⟩ := hg.node v hv
  have hnodup := h.nodup_table hv
  rw [htable] at hp hnodup
  exact ⟨j, htable ▸ hp,
    Forest.locate_of_get? hnode (by rw [hg.metamodel_eq, htype, ht]) hnodup hp⟩

theorem map_set_put {table : List Property} (hnodup : (table.map Property.name).Nodup)
    {p : Property} {j : Nat} (hp : table[j]? = some p) (fill : NodeId → String → Slot)
    (v : NodeId) (slot : Slot) :
    (table.map fun q => fill v q.name).set j slot =
      table.map fun q => put fill v p.name slot v q.name := by
  apply List.ext_getElem?
  intro i
  rw [List.getElem?_set, List.getElem?_map, List.getElem?_map]
  by_cases hi : j = i
  · subst hi
    have hlt : j < table.length := (List.getElem?_eq_some_iff.mp hp).1
    rw [if_pos rfl, if_pos (by simpa using hlt), hp, Option.map_some, put_self]
  · rw [if_neg hi]
    cases hq : table[i]? with
    | none => rfl
    | some q =>
        have hname : ¬ (v = v ∧ q.name = p.name) :=
          fun heq => hi (index_unique hnodup hp hq heq.2.symm)
        rw [Option.map_some, Option.map_some, put_of_ne fill slot hname]

/-- **The effect of an edit.**  If a command fills the slot of a visible facet with
content that owns images of what the facet owns, then carrying it out succeeds and
changes that slot only. -/
theorem step (hg : Partway f order g fill) (h : Source schema f root order) (hv : v ∈ order)
    (hfacet : facet ∈ f.visible v) {j : Nat} (hj : (f.table v)[j]? = some facet.property)
    {command : Command} {slot : Slot}
    (heffect : command.effect g = .ok (.refilled (number order v) ⟨j, facet.property⟩ slot))
    (hslot : ∀ d ∈ slot.owned, ∃ c ∈ facet.slot.owned, d = number order c) :
    ∃ g', command.edit g = .ok () g' ∧
      Partway f order g' (put fill v facet.property.name slot) := by
  have hadmits : g.Admits (number order v) ⟨j, facet.property⟩ slot :=
    Command.admissible hg.sound heffect
  refine ⟨g.refill (number order v) j slot, ?_, ?_⟩
  · rw [command.edit_eq hg.sound, heffect]
    rfl
  · refine ⟨hg.sound.refill hadmits, hg.metamodel_eq, ?_, ?_, ?_⟩
    · rw [Forest.size_refill, hg.size_eq]
    · intro u hu
      obtain ⟨parent, hnode⟩ := hg.node u hu
      rw [Forest.get?_refill, hnode, Option.map_some, Forest.refillNode]
      by_cases huv : u = v
      · subst huv
        exact ⟨_, by rw [if_pos rfl, map_set_put (h.nodup_table hu) hj]⟩
      · have hne : number order u ≠ number order v :=
          fun hnumber => huv (Source.number_injective hu hnumber)
        refine ⟨_, by
          rw [if_neg hne, List.map_congr_left fun p _ =>
            (put_of_ne fill slot fun heq => huv heq.1).symm]⟩
    · -- The slot that was filled owns images by hypothesis; the others did before.
      intro u hu p hp d hd
      by_cases hsame : u = v ∧ p.name = facet.property.name
      · obtain ⟨rfl, hname⟩ := hsame
        rw [hname, put_self] at hd
        obtain ⟨c, hc, rfl⟩ := hslot d hd
        exact ⟨facet, hfacet, hname.symm, c, hc, rfl⟩
      · rw [put_of_ne fill slot hsame] at hd
        exact hg.within u hu p hp d hd

end Partway

/-- The contents of the slots of blank nodes. -/
def emptyFill (f : Forest) (v : NodeId) (name : String) : Slot :=
  Slot.empty ((((f.table v).find? fun p => p.name == name).map Property.kind).getD .value)

namespace Source

variable {σ : Type} [Schema σ] {schema : σ} {f : Forest} {root : NodeId} {order : List NodeId}

theorem emptyFill_eq (h : Source schema f root order) {v : NodeId} (hv : v ∈ order)
    {p : Property} (hp : p ∈ f.table v) : emptyFill f v p.name = Slot.empty p.kind := by
  rw [emptyFill, find?_of_nodup_key Property.name (h.nodup_table hv) hp]
  rfl

/-- The second pass starts with blank nodes. -/
theorem partway_blank (h : Source schema f root order) :
    Partway f order (blank f order order) (emptyFill f) where
  sound := h.sound_blank
  metamodel_eq := rfl
  size_eq := by simp [blank, Forest.size]
  node := by
    intro v hv
    refine ⟨none, ?_⟩
    rw [Forest.get?, blank, List.getElem?_map, number, List.getElem?_idxOf hv, Option.map_some,
      List.map_congr_left fun p hp => (h.emptyFill_eq hv hp).symm]
    rfl
  within := by
    intro v hv p hp d hd
    rw [h.emptyFill_eq hv hp, Slot.owned_empty] at hd
    cases hd

end Source

end Document

end TypedForest
