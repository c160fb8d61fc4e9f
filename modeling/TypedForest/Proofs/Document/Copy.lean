import TypedForest.Proofs.Document.Import

/-!
# Copies of trees

Reading the document of a tree, its records in any order, makes a copy of the
tree: a node for each record, with the image of each visible slot, and with the
slots of all other properties empty.  Children and parents correspond, except that
the root of the copy has no parent, which is how the final check finds it.

The copy of a free tree is written like the tree: traversals correspond, paths are
the same, and what was changed on the way (values that were read back, references
that lost their target, absent lists) leaves no trace in the records.

## Main Definitions

* `Document.Copy`: a forest is the copy of a tree.

## Main Results

* `Source.exists_importTree`: reading succeeds and makes a copy.
* `Copy.preorder_eq`, `Copy.path_eq`: traversals and paths of a copy.
* `Copy.recordFor_eq`, `Copy.exportTree_eq`: a copy is written like the tree.
-/

namespace TypedForest

namespace Document

/-- The content of a slot in the copy.  Properties that are not public are not
written, and their slots stay empty. -/
def copied (order : List NodeId) (p : Property) (slot : Slot) : Slot :=
  if p.isPublic then image order ⟨p, slot⟩ else Slot.empty p.kind

/-- The forest consists of copies of the nodes of a tree, in a given order. -/
structure Copy (f : Forest) (root : NodeId) (order : List NodeId) (g : Forest) : Prop where
  sound : g.Sound
  metamodel_eq : g.metamodel = f.metamodel
  size_eq : g.size = order.length
  node : ∀ v ∈ order, ∀ n, f.get? v = some n → g.get? (number order v) = some
    { id := number order v, type := n.type,
      parent := if v = root then none else n.parent.map (number order),
      slots := (f.table v).zipWith (copied order) n.slots }

variable {σ : Type} [Schema σ] {schema : σ} {f g : Forest} {root : NodeId} {order : List NodeId}
  {space : String} {fill : NodeId → String → Slot} {v : NodeId}

/-! ### Reading makes a copy -/

namespace Source

theorem mem_root (h : Source schema f root order) : root ∈ order :=
  h.perm.mem_iff.mp (h.sound.mem_preorder_self h.exists_root)

/-- A node other than the root has a parent in the tree. -/
theorem exists_parent (h : Source schema f root order) (hv : v ∈ order) (hne : v ≠ root) :
    ∃ p ∈ order, f.parent? v = some p ∧ ∃ facet ∈ f.visible p, v ∈ facet.slot.owned := by
  rcases h.sound.exists_parent_of_mem_preorder (h.mem_preorder hv) with rfl | ⟨p, hp, hchild⟩
  · exact absurd rfl hne
  · refine ⟨p, h.perm.mem_iff.mp hp, h.sound.parent?_of_mem_children hchild, ?_⟩
    rw [f.children_eq_flatMap] at hchild
    exact List.mem_flatMap.mp hchild

/-- The parent of the root does not belong to the tree. -/
theorem not_mem_of_isParent_root (h : Source schema f root order) {p : NodeId}
    (hp : f.IsParent root p) : p ∉ order := by
  intro hmem
  have habove := h.sound.above_of_mem_preorder (h.mem_preorder hmem)
  exact h.sound.wellFormed.acyclic root (.head' hp habove)

end Source

/-- Once all facets are filled, parents are those of the tree. -/
theorem Partway.parent?_eq (hg : Partway f order g fill) (h : Source schema f root order)
    (hfill : ∀ v ∈ order, ∀ facet ∈ f.visible v,
      fill v facet.property.name = image order facet) (hv : v ∈ order) :
    g.parent? (number order v) = if v = root then none else (f.parent? v).map (number order) := by
  by_cases hroot : v = root
  · subst hroot
    -- A parent of the copy would be the copy of a parent in the tree, above the root.
    rw [if_pos rfl]
    by_contra hparent
    obtain ⟨q, hq⟩ := Option.ne_none_iff_exists'.mp hparent
    obtain ⟨p, hp, -, hup⟩ := hg.exists_of_isParent h hv hq
    exact h.not_mem_of_isParent_root hup hp
  · obtain ⟨p, hp, hup, facet, hfacet, howned⟩ := h.exists_parent hv hroot
    rw [if_neg hroot, hup, Option.map_some]
    obtain ⟨-, j, -, hj, -, -, -⟩ := h.site_of_mem_visible hp hfacet
    obtain ⟨parent, hnode⟩ := hg.node p hp
    refine hg.sound.wellFormed.parent_iff.mpr ⟨_, hnode, ?_⟩
    refine Node.mem_owned.mpr ⟨j, fill p facet.property.name, ?_, ?_⟩
    · rw [List.getElem?_map, hj, Option.map_some]
    · rw [hfill p hp facet hfacet, owned_image]
      exact List.mem_map_of_mem howned

/-- Once all facets are filled, slots are those of the copy. -/
theorem Source.map_fill_eq (h : Source schema f root order)
    (hfill : ∀ facet ∈ f.visible v, fill v facet.property.name = image order facet)
    (hhidden : ∀ p ∈ f.table v, p.isPublic = false → fill v p.name = Slot.empty p.kind)
    (hv : v ∈ order) {n : Node} (hn : f.get? v = some n) :
    ((f.table v).map fun p => fill v p.name) = (f.table v).zipWith (copied order) n.slots := by
  obtain ⟨n', t, hn', ht, -, hfits, -, htable⟩ := h.exists_node hv
  obtain rfl : n = n' := Option.some.inj (hn.symm.trans hn')
  apply List.ext_getElem?
  intro i
  rw [List.getElem?_map, List.getElem?_zipWith]
  cases hp : (f.table v)[i]? with
  | none => rfl
  | some p =>
      obtain ⟨s, hs, -⟩ := hfits.exists_slot (htable ▸ hp)
      rw [hs]
      show some (fill v p.name) = some (copied order p s)
      rw [copied]
      cases hpublic : p.isPublic with
      | false =>
          rw [hhidden p (List.mem_of_getElem? hp) hpublic]
          rfl
      | true =>
          have hfacet : (⟨p, s⟩ : Facet) ∈ f.visible v := by
            rw [Forest.visible_of_get? hn ht, ← htable]
            exact List.mem_filter.mpr ⟨Forest.mem_zipWith_facet.mpr ⟨i, hp, hs⟩, hpublic⟩
          rw [hfill ⟨p, s⟩ hfacet]
          rfl

/-- Once all facets are filled, the forest is a copy. -/
theorem Partway.copy (hg : Partway f order g fill) (h : Source schema f root order)
    (hfill : ∀ v ∈ order, ∀ facet ∈ f.visible v,
      fill v facet.property.name = image order facet)
    (hhidden : ∀ v ∈ order, ∀ p ∈ f.table v, p.isPublic = false →
      fill v p.name = Slot.empty p.kind) : Copy f root order g where
  sound := hg.sound
  metamodel_eq := hg.metamodel_eq
  size_eq := hg.size_eq
  node := by
    intro v hv n hn
    obtain ⟨parent, hnode⟩ := hg.node v hv
    have hparent := hg.parent?_eq h hfill hv
    rw [Forest.parent?_of_get? hnode, Forest.parent?_of_get? hn] at hparent
    rw [hnode, Forest.typeOf_of_get? hn, h.map_fill_eq (hfill v hv) (hhidden v hv) hv hn]
    simp only at hparent
    rw [hparent]

/-! ### The final check -/

/-- Records declare the parents that the copies have. -/
theorem Source.bind_nodeOf? (h : Source schema f root order) (hv : v ∈ order) {n : Node}
    (hn : f.get? v = some n) :
    (recordFor schema (f.treeName? space root) f root v).parent.bind
        (nodeOf? (order.map (entryFor space f order))) =
      if v = root then none else n.parent.map (number order) := by
  by_cases hroot : v = root
  · simp [recordFor, hroot]
  · obtain ⟨p, hp, hup, -⟩ := h.exists_parent hv hroot
    have hparent : n.parent = some p := by rw [← Forest.parent?_of_get? hn, hup]
    simp [recordFor, hroot, hup, hparent, treeName?_of_mem (h.mem_preorder hp),
      h.nodeOf?_eq (List.Subset.refl order) hp, hp]

/-- The nodes without a parent are the copies of the root. -/
theorem Copy.parentless_eq (hg : Copy f root order g) (h : Source schema f root order)
    (space : String) {l : List NodeId} (hsub : l ⊆ order) :
    parentless (order.map (entryFor space f order)) g
        (l.map fun v => (recordFor schema (f.treeName? space root) f root v,
          entryFor space f order v)) =
      .ok ((l.filter fun v => v = root).map (number order)) := by
  induction l with
  | nil => rfl
  | cons v l ih =>
      obtain ⟨hv, hsub⟩ := List.cons_subset.mp hsub
      obtain ⟨n, t, hn, -⟩ := h.exists_node hv
      rw [List.map_cons, parentless, Forest.node, entryFor, hg.node v hv n hn]
      simp only [bind, Except.bind, h.bind_nodeOf? hv hn, if_true, ih hsub]
      by_cases hroot : v = root
      · simp [hroot, pure, Except.pure]
      · obtain ⟨p, hp, hup, -⟩ := h.exists_parent hv hroot
        have hparent : n.parent = some p := by rw [← Forest.parent?_of_get? hn, hup]
        simp [hroot, hparent, pure, Except.pure]

/-- The copy of the root is the only node without a parent. -/
theorem Copy.soleRoot_eq (hg : Copy f root order g) (h : Source schema f root order)
    (space : String) :
    soleRoot (order.map (entryFor space f order))
        (order.map (recordFor schema (f.treeName? space root) f root)) g =
      .ok (number order root) := by
  have hone : (order.filter fun v => v = root) = [root] := by
    rw [List.filter_eq, List.count_eq_one_of_mem h.nodup h.mem_root]
    rfl
  rw [soleRoot, h.entered_records, hg.parentless_eq h space (List.Subset.refl order), hone]
  rfl

/-- **Reading the records of a tree, in any order, makes a copy of the tree.** -/
theorem Source.exists_importTree (h : Source schema f root order) (space : String)
    (languages : List LanguageUse) :
    ∃ g, importTree schema f.metamodel
        { languages, records := order.map (recordFor schema (f.treeName? space root) f root) } =
          .ok (g, number order root) ∧
      Copy f root order g := by
  obtain ⟨g, fill, hrun, hpartway, hfill, hhidden⟩ := h.exists_filled space
  have hg := hpartway.copy h hfill hhidden
  refine ⟨g, ?_, hg⟩
  have hbuild : build schema
      { languages, records := order.map (recordFor schema (f.treeName? space root) f root) }
      { metamodel := f.metamodel } = .ok (number order root) g := by
    rw [build, bind_of_ok _ h.createNodes_eq, h.entered_records, bind_of_ok _ hrun]
    exact ask_of_ok (hg.soleRoot_eq h space)
  rw [importTree, if_pos rfl, hbuild]

/-! ### Copies look like the tree -/

/-- A facet in the copy. -/
def imageFacet (order : List NodeId) (facet : Facet) : Facet :=
  ⟨facet.property, image order facet⟩

theorem filter_zipWith_copied (order : List NodeId) (table : List Property)
    (slots : List Slot) :
    ((table.zipWith Facet.mk (table.zipWith (copied order) slots)).filter
        fun facet => facet.property.isPublic) =
      ((table.zipWith Facet.mk slots).filter fun facet => facet.property.isPublic).map
        (imageFacet order) := by
  induction table generalizing slots with
  | nil => rfl
  | cons p table ih =>
      cases slots with
      | nil => rfl
      | cons slot slots =>
          cases hpublic : p.isPublic with
          | false => simp [hpublic, ih]
          | true => simp [hpublic, ih, copied, imageFacet]

namespace Copy

theorem typeOf_eq (hg : Copy f root order g) (h : Source schema f root order) (hv : v ∈ order) :
    g.typeOf (number order v) = f.typeOf v := by
  obtain ⟨n, t, hn, -, -, -, htype, -⟩ := h.exists_node hv
  rw [Forest.typeOf_of_get? (hg.node v hv n hn), htype]

theorem isSome_get? (hg : Copy f root order g) (h : Source schema f root order)
    (hv : v ∈ order) : (g.get? (number order v)).isSome := by
  obtain ⟨n, t, hn, -⟩ := h.exists_node hv
  rw [hg.node v hv n hn]
  rfl

theorem parent?_eq (hg : Copy f root order g) (h : Source schema f root order) (hv : v ∈ order) :
    g.parent? (number order v) =
      if v = root then none else (f.parent? v).map (number order) := by
  obtain ⟨n, t, hn, -⟩ := h.exists_node hv
  rw [Forest.parent?_of_get? (hg.node v hv n hn), Forest.parent?_of_get? hn]

theorem visible_eq (hg : Copy f root order g) (h : Source schema f root order) (hv : v ∈ order) :
    g.visible (number order v) = (f.visible v).map (imageFacet order) := by
  obtain ⟨n, t, hn, ht, -, -, -, htable⟩ := h.exists_node hv
  have ht' : g.metamodel.type n.type = .ok t := by rw [hg.metamodel_eq, ht]
  rw [Forest.visible_of_get? (hg.node v hv n hn) ht', Forest.visible_of_get? hn ht, htable,
    filter_zipWith_copied]

/-- The children of a copy are the copies of the children. -/
theorem children_eq (hg : Copy f root order g) (h : Source schema f root order) (hv : v ∈ order) :
    g.children (number order v) = (f.children v).map (number order) := by
  rw [g.children_eq_flatMap, hg.visible_eq h hv, f.children_eq_flatMap, List.flatMap_map,
    List.map_flatMap]
  exact List.flatMap_congr fun facet _ => owned_image order facet

/-- **The traversal of the copy is the copy of the traversal.** -/
theorem preorder_eq (hg : Copy f root order g) (h : Source schema f root order) (hv : v ∈ order) :
    g.preorder (number order v) = (f.preorder v).map (number order) := by
  -- From the leaves up: the trees below a node correspond, hence so does its own.
  obtain ⟨n, t, hn, -⟩ := h.exists_node hv
  refine h.sound.up_induction (fun p hp ih hmem => ?_) v (by simp [hn]) hv
  rw [hg.sound.preorder_eq (hg.isSome_get? h hmem), h.sound.preorder_eq hp, Forest.below,
    Forest.below, hg.children_eq h hmem, List.flatMap_map, List.map_cons, List.map_flatMap]
  congr 1
  refine List.flatMap_congr fun c hc => ih c hc ?_
  exact h.perm.mem_iff.mp (h.sound.mem_preorder_of_mem_children (h.mem_preorder hmem) hc)

end Copy

/-- A child keeps its place in its slot. -/
theorem indexOf?_image {facet : Facet} (hv : v ∈ order) :
    (image order facet).indexOf? (number order v) = facet.slot.indexOf? v := by
  have hsame : ((fun d => d == number order v) ∘ number order) = fun d => d == v := by
    funext d
    rw [Function.comp_apply, Bool.eq_iff_iff, beq_iff_eq, beq_iff_eq]
    exact ⟨fun heq => (Source.number_injective hv heq.symm).symm, congrArg _⟩
  obtain ⟨p, slot⟩ := facet
  unfold image
  cases slot with
  | children cs =>
      cases cs with
      | none => rfl
      | some cs =>
          show (cs.map (number order)).findIdx? _ = cs.findIdx? _
          rw [List.findIdx?_map, hsame]
  | value x => rfl
  | child c => rfl
  | ignored => rfl
  | reference ref => rfl

namespace Copy

/-- **The copy of a free tree has the same paths.** -/
theorem path_eq (hg : Copy f root order g) (h : Source schema f root order)
    (hfree : f.parent? root = none) (hv : v ∈ order) :
    g.path (number order v) = f.path v := by
  -- From the root down.  As the root is free, no path starts above it.
  induction v using h.sound.wellFormed.down_induction with
  | root v hparent =>
      rw [h.sound.path_of_free hparent, hg.sound.path_of_free]
      rw [hg.parent?_eq h hv, hparent]
      split <;> rfl
  | child v p hparent ih =>
      have hne : v ≠ root := by
        rintro rfl
        rw [hfree] at hparent
        cases hparent
      obtain ⟨q, hq, hup, facet, hfacet, howned⟩ := h.exists_parent hv hne
      obtain rfl : p = q := Option.some.inj (hparent.symm.trans hup)
      obtain ⟨n, j, hn, hj, hs, hpublic, -⟩ := h.site_of_mem_visible hq hfacet
      obtain ⟨n', t, hn', ht, -, -, -, htable⟩ := h.exists_node hq
      obtain rfl : n = n' := Option.some.inj (hn.symm.trans hn')
      have hholds : f.Holds p j facet.property facet.slot v :=
        ⟨⟨n, t, hn, ht, htable ▸ hj, hs⟩, howned⟩
      have hholds' : g.Holds (number order p) j facet.property (image order facet)
          (number order v) := by
        refine ⟨⟨_, t, hg.node p hq n hn, by rw [hg.metamodel_eq]; exact ht, htable ▸ hj, ?_⟩, ?_⟩
        · simp [List.getElem?_zipWith, hj, hs, copied, hpublic]
        · rw [owned_image]
          exact List.mem_map_of_mem howned
      rw [hholds.path_eq h.sound.wellFormed, hholds'.path_eq hg.sound.wellFormed, ih hq,
        indexOf?_image hv]

/-- The copy of a free tree has the same identifiers. -/
theorem treeName?_eq (hg : Copy f root order g) (h : Source schema f root order)
    (hfree : f.parent? root = none) (hv : v ∈ order) :
    g.treeName? space (number order root) (number order v) = f.treeName? space root v := by
  have hmem : number order v ∈ g.preorder (number order root) := by
    rw [hg.preorder_eq h h.mem_root]
    exact List.mem_map_of_mem (h.mem_preorder hv)
  rw [treeName?_of_mem hmem, treeName?_of_mem (h.mem_preorder hv), Forest.structuralId,
    Forest.structuralId, hg.path_eq h hfree hv]

/-- Attributes of the copy are written alike. -/
theorem asProperty?_eq (h : Source schema f root order) {facet : Facet} (hv : v ∈ order)
    (hfacet : facet ∈ f.visible v) (type : String) :
    asProperty? schema type (imageFacet order facet) = asProperty? schema type facet := by
  have haccepts := h.accepts hv hfacet
  obtain ⟨p, slot⟩ := facet
  cases slot with
  | value x =>
      obtain ⟨w, hread, -, hwire⟩ := Forest.exists_reread (haccepts.value_ok x rfl)
      simp [asProperty?, imageFacet, image, hread, hwire]
  | child c => rfl
  | children cs => rfl
  | ignored => rfl
  | reference ref => rfl

/-- Containments of the copy are written alike. -/
theorem asContainment?_eq (hg : Copy f root order g) (h : Source schema f root order)
    (hfree : f.parent? root = none) {facet : Facet} (hv : v ∈ order)
    (hfacet : facet ∈ f.visible v) (type : String) :
    asContainment? schema (g.treeName? space (number order root)) type (imageFacet order facet) =
      asContainment? schema (f.treeName? space root) type facet := by
  have hnames : (image order facet).owned.filterMap (g.treeName? space (number order root)) =
      facet.slot.owned.filterMap (f.treeName? space root) := by
    rw [owned_image, List.filterMap_map]
    exact List.filterMap_congr fun c hc =>
      hg.treeName?_eq h hfree (h.child_of_mem_owned hv hfacet hc).2
  unfold asContainment? imageFacet
  simp only [kind_image, hnames]

/-- References of the copy are written alike, as those that leave the tree are
written without a target. -/
theorem asReference?_eq (hg : Copy f root order g) (h : Source schema f root order)
    (hfree : f.parent? root = none) (type : String) (facet : Facet) :
    asReference? schema (g.treeName? space (number order root)) type (imageFacet order facet) =
      asReference? schema (f.treeName? space root) type facet := by
  obtain ⟨p, slot⟩ := facet
  have htarget : ∀ target : Option NodeId,
      ((target.filter fun c => c ∈ order).map (number order)).bind
          (g.treeName? space (number order root)) =
        target.bind (f.treeName? space root) := by
    intro target
    cases target with
    | none => rfl
    | some c =>
        by_cases hc : c ∈ order
        · simp [Option.filter, hc, hg.treeName?_eq h hfree hc]
        · have hout : c ∉ f.preorder root := fun hin => hc (h.perm.mem_iff.mp hin)
          simp [Option.filter, hc, Forest.treeName?, hout]
  cases slot with
  | reference ref => cases ref <;> simp [asReference?, imageFacet, image, imageRef, htarget]
  | value x => rfl
  | child c => rfl
  | children cs => rfl
  | ignored => rfl

/-- **The records of a copy are those of the tree.** -/
theorem recordFor_eq (hg : Copy f root order g) (h : Source schema f root order)
    (hfree : f.parent? root = none) (hv : v ∈ order) :
    recordFor schema (g.treeName? space (number order root)) g (number order root)
        (number order v) =
      recordFor schema (f.treeName? space root) f root v := by
  -- The parents of nodes other than the root belong to the tree and are named.
  have hparent : (if number order v = number order root then none
      else (g.parent? (number order v)).bind (g.treeName? space (number order root))) =
      if v = root then none else (f.parent? v).bind (f.treeName? space root) := by
    by_cases hroot : v = root
    · simp [hroot]
    · have hne : number order v ≠ number order root :=
        fun hnumber => hroot (Source.number_injective hv hnumber)
      obtain ⟨p, hp, hup, -⟩ := h.exists_parent hv hroot
      rw [if_neg hne, if_neg hroot, hg.parent?_eq h hv, if_neg hroot, hup]
      exact hg.treeName?_eq h hfree hp
  unfold recordFor
  rw [hparent, hg.typeOf_eq h hv, hg.treeName?_eq h hfree hv, hg.visible_eq h hv,
    List.filterMap_map, List.filterMap_map, List.filterMap_map]
  congr 1
  · exact List.filterMap_congr fun facet hfacet => asProperty?_eq h hv hfacet _
  · exact List.filterMap_congr fun facet hfacet => hg.asContainment?_eq h hfree hv hfacet _
  · exact List.filterMap_congr fun facet _ => hg.asReference?_eq h hfree _ facet

/-- **Exporting the copy gives the document of the tree**, with the records in the
order of the traversal. -/
theorem exportTree_eq (hg : Copy f root order g) (h : Source schema f root order)
    (hfree : f.parent? root = none) (space : String) :
    exportTree schema space g (number order root) =
      .ok (ofTree schema space f root (f.preorder root)) := by
  have hpreorder := hg.preorder_eq h h.mem_root
  have hcovers : Schema.Covers schema g (number order root) := by
    intro node hnode
    rw [hpreorder] at hnode
    obtain ⟨v, hv, rfl⟩ := List.mem_map.mp hnode
    rw [hg.typeOf_eq h (h.perm.mem_iff.mp hv), hg.metamodel_eq]
    exact h.covers v hv
  have hrecords : (g.preorder (number order root)).map
      (recordFor schema (g.treeName? space (number order root)) g (number order root)) =
      (f.preorder root).map (recordFor schema (f.treeName? space root) f root) := by
    rw [hpreorder, List.map_map]
    exact List.map_congr_left fun v hv => hg.recordFor_eq h hfree (h.perm.mem_iff.mp hv)
  have hlanguages := congrArg (List.map Record.language) hrecords
  rw [List.map_map, List.map_map] at hlanguages
  rw [Document.exportTree_eq hg.sound (hg.metamodel_eq ▸ h.built) h.faithful
    (hg.isSome_get? h h.mem_root) hcovers, ofTree, ofTree, hrecords]
  congr 3

end Copy

end Document

end TypedForest
