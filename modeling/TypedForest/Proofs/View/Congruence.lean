import TypedForest.Comparison
import TypedForest.Forest.References
import TypedForest.Proofs.Document.Record

/-!
# What the view of a forest determines

Walking, naming, checking, writing and comparing trees do not look at slots directly.
They see the types and positions of the nodes, the public facets, and the labels that go
into messages.  Two forests with the same types, positions and public facets are one
view.  A free root then carries the same tree in both, with the same paths: the nodes of the
tree are held by public slots all the way up.

Whatever starts at such a root has the same outcome in both forests, messages of errors
included.  Comparing trees puts labels of arbitrary nodes into its messages, also of
nodes outside the trees, so it needs equal labels everywhere.

## Main Definitions

* `Forest.SameView`: the same types, positions and public facets.
* `Forest.SameTree`: one view, and a root that is free in both forests.
* `Forest.SameLook`: one view and the same labels.

## Main Results

* `SameView.preorder_eq`, `SameView.postorder_eq`: one view, the same traversals.
* `SameTree.place_eq`: the nodes of the tree have the same parents and paths.
* `SameTree.checkTree_eq`, `SameTree.assignIds_eq`, `SameTree.checkResolution_eq`,
  `SameTree.exportTree_eq`: the same outcomes from the root.
* `Comparison.trees_congr`: comparisons of forests that look the same.
-/

namespace TypedForest

/-- What is seen of a node besides its facets. -/
def Node.outline (n : Node) : String × Option Position := (n.type, n.position)

namespace Forest

variable {f g : Forest} {root x : NodeId}

/-- The forests have the same nodes with the same types, positions and public facets. -/
structure SameView (f g : Forest) : Prop where
  metamodel_eq : g.metamodel = f.metamodel
  size_eq : g.size = f.size
  outline_eq : ∀ x, (g.get? x).map Node.outline = (f.get? x).map Node.outline
  publicFacets_eq : ∀ x, g.publicFacets x = f.publicFacets x

/-- Two sound forests of one view, and a node that is free in both. -/
structure SameTree (f g : Forest) (root : NodeId) : Prop where
  view : f.SameView g
  sound : f.Sound
  sound' : g.Sound
  free : f.parent? root = none
  free' : g.parent? root = none

/-- Two forests of one view with the same labels. -/
structure SameLook (f g : Forest) : Prop where
  view : f.SameView g
  label_eq : g.label = f.label

/-- Nodes with the same outline have the same type and position. -/
theorem exists_node_of_outline_eq (h : (g.get? x).map Node.outline = (f.get? x).map Node.outline)
    {n : Node} (hn : f.get? x = some n) :
    ∃ n', g.get? x = some n' ∧ n'.type = n.type ∧ n'.position = n.position := by
  rw [hn, Option.map_some, Option.map_eq_some_iff] at h
  obtain ⟨n', hn', heq⟩ := h
  obtain ⟨htype, hposition⟩ := Prod.mk.inj heq
  exact ⟨n', hn', htype, hposition⟩

/-! ### Traversals -/

namespace SameView

theorem refl (f : Forest) : f.SameView f := ⟨rfl, rfl, fun _ => rfl, fun _ => rfl⟩

theorem isSome_get? (h : f.SameView g) (x : NodeId) : (g.get? x).isSome = (f.get? x).isSome := by
  rw [← Option.isSome_map (f := Node.outline), h.outline_eq, Option.isSome_map]

/-- A node of one forest has a counterpart in the other. -/
theorem exists_node (h : f.SameView g) {n : Node} (hn : f.get? x = some n) :
    ∃ n', g.get? x = some n' ∧ n'.type = n.type ∧ n'.position = n.position :=
  exists_node_of_outline_eq (h.outline_eq x) hn

theorem get?_eq_none (h : f.SameView g) (hx : f.get? x = none) : g.get? x = none := by
  rw [← Option.isNone_iff_eq_none, ← Option.not_isSome, h.isSome_get?, hx]
  rfl

theorem visible_eq (h : f.SameView g) (x : NodeId) : g.visible x = f.visible x := by
  rw [visible, visible, h.publicFacets_eq]

theorem children_eq (h : f.SameView g) : g.children = f.children := by
  funext x
  rw [children_eq_flatMap, children_eq_flatMap, h.visible_eq]

theorem unfoldPreorder_eq (h : f.SameView g) (budget : Nat) (stack : List NodeId) :
    g.unfoldPreorder budget stack = f.unfoldPreorder budget stack := by
  induction budget generalizing stack with
  | zero => rfl
  | succ budget ih =>
      cases stack with
      | nil => rfl
      | cons id stack => rw [unfoldPreorder, unfoldPreorder, h.children_eq, ih]

/-- **One view, the same traversals.** -/
theorem preorder_eq (h : f.SameView g) (root : NodeId) : g.preorder root = f.preorder root := by
  rw [preorder, preorder, h.isSome_get?, h.size_eq, h.unfoldPreorder_eq]

theorem postorder_eq (h : f.SameView g) (root : NodeId) :
    g.postorder root = f.postorder root := by
  have hroot : SameFrame (root, f.cursor root) (root, g.cursor root) :=
    ⟨rfl, by rw [rest_cursor, rest_cursor, h.children_eq]⟩
  have hunfold := unfoldPostorder_congr (congrFun h.children_eq) (2 * f.size)
    (.cons hroot .nil)
  rw [postorder, postorder, h.isSome_get?, h.size_eq, hunfold]

theorem traverse_eq (h : f.SameView g) (order : Traversal) (root : NodeId) :
    g.traverse order root = f.traverse order root := by
  cases order with
  | preorder => exact h.preorder_eq root
  | postorder => exact h.postorder_eq root

end SameView

/-! ### Places -/

/-- What a visible facet owns is held by its slot. -/
theorem Sound.exists_holds_of_visible (hf : f.Sound) {p : NodeId} {facet : Facet}
    (hfacet : facet ∈ f.visible p) (hx : x ∈ facet.slot.owned) :
    ∃ j, f.Holds p j facet.property facet.slot x := by
  cases hn : f.get? p with
  | none => simp [visible, publicFacets, facets, node, hn, bind, Except.bind, Except.map,
      Except.toOption] at hfacet
  | some n =>
      obtain ⟨t, ht, -, -⟩ := hf.wellTyped hn
      rw [visible_of_get? hn ht] at hfacet
      obtain ⟨j, hp, hs⟩ := mem_zipWith_facet.mp (List.mem_filter.mp hfacet).1
      exact ⟨j, ⟨n, t, hn, ht, hp, hs⟩, hx⟩

namespace SameTree

/-- **The nodes of the tree have the same parents and the same paths in both forests.**
The induction is from the root down. -/
theorem place_eq (h : f.SameTree g root) (hx : x ∈ f.preorder root) :
    g.parent? x = f.parent? x ∧ g.path x = f.path x := by
  induction x using h.sound.wellFormed.down_induction with
  | root x hfree =>
      rcases h.sound.exists_parent_of_mem_preorder hx with rfl | ⟨p, -, hchild⟩
      · rw [h.free, h.free', h.sound.path_of_free h.free, h.sound'.path_of_free h.free']
        exact ⟨rfl, rfl⟩
      · rw [h.sound.parent?_of_mem_children hchild] at hfree
        cases hfree
  | child x p hparent ih =>
      rcases h.sound.exists_parent_of_mem_preorder hx with rfl | ⟨q, hq, hchild⟩
      · rw [h.free] at hparent
        cases hparent
      · obtain rfl : p = q :=
          Option.some.inj (hparent.symm.trans (h.sound.parent?_of_mem_children hchild))
        rw [children_eq_flatMap, List.mem_flatMap] at hchild
        obtain ⟨facet, hfacet, hmem⟩ := hchild
        obtain ⟨j, hholds⟩ := h.sound.exists_holds_of_visible hfacet hmem
        rw [← h.view.visible_eq] at hfacet
        obtain ⟨j', hholds'⟩ := h.sound'.exists_holds_of_visible hfacet hmem
        rw [hholds'.parent?_eq h.sound'.wellFormed, hparent,
          hholds'.path_eq h.sound'.wellFormed, hholds.path_eq h.sound.wellFormed, (ih hq).2]
        exact ⟨rfl, rfl⟩

theorem pathText_eq (h : f.SameTree g root) (hx : x ∈ f.preorder root) :
    g.pathText x = f.pathText x := by
  rw [pathText, pathText, (h.place_eq hx).2]

theorem label_eq (h : f.SameTree g root) (hx : x ∈ f.preorder root) :
    g.label x = f.label x := by
  obtain ⟨n, hn⟩ := Option.isSome_iff_exists.mp (h.sound.exists_of_mem_preorder hx)
  obtain ⟨n', hn', htype, -⟩ := h.view.exists_node hn
  simp only [label, hn, hn', htype, h.pathText_eq hx]

/-! ### Checks and identifiers -/

theorem checkTree_eq (h : f.SameTree g root) : g.checkTree root = f.checkTree root := by
  cases hn : f.get? root with
  | none => simp [checkTree, node, hn, h.view.get?_eq_none hn]
  | some n =>
      have hroot : (f.get? root).isSome := by simp [hn]
      rw [h.sound.checkTree_eq hroot,
        h.sound'.checkTree_eq (h.view.isSome_get? root ▸ hroot), h.view.preorder_eq]

theorem assignId_eq (h : f.SameTree g root) (space : String) (m : Naming)
    (hx : x ∈ f.preorder root) :
    g.assignId (.structural space) m x = f.assignId (.structural space) m x := by
  have hnext : (Namer.structural space).next g x = (Namer.structural space).next f x := by
    obtain ⟨n, hn⟩ := Option.isSome_iff_exists.mp (h.sound.exists_of_mem_preorder hx)
    obtain ⟨n', hn', -⟩ := h.view.exists_node hn
    simp only [Namer.structural, hn, hn', Option.map_some, (h.place_eq hx).2]
  simp only [assignId, Naming.insert, hnext, h.label_eq hx]

/-- The nodes of the tree get the same identifiers. -/
theorem assignIds_eq (h : f.SameTree g root) (space : String) {nodes : List NodeId}
    (hnodes : ∀ x ∈ nodes, x ∈ f.preorder root) :
    g.assignIds root nodes (.structural space) = f.assignIds root nodes (.structural space) := by
  have hfold := foldlM_congr (μ := EStateM Error Unit)
    (fun x hx m => h.assignId_eq space m (hnodes x hx)) {}
  funext state
  rw [assignIds, assignIds, h.checkTree_eq, hfold]

/-! ### References -/

theorem checkFacets_eq (h : f.SameTree g root) (s : Selector) (expected : Bool)
    (hx : x ∈ f.preorder root) (type : String) (count : Nat) (facets : List Facet) :
    g.checkFacets s expected x type count facets =
      f.checkFacets s expected x type count facets := by
  induction facets generalizing count with
  | nil => rfl
  | cons facet facets ih =>
      rw [checkFacets, checkFacets, h.view.metamodel_eq, h.pathText_eq hx]
      simp only [ih]

theorem checkBelow_eq (h : f.SameTree g root) (s : Selector) (expected : Bool) (budget : Nat) :
    ∀ (count : Nat) (x : NodeId), x ∈ f.preorder root →
      g.checkBelow s expected budget count x = f.checkBelow s expected budget count x := by
  induction budget with
  | zero =>
      intro count x hx
      rw [checkBelow, checkBelow, h.label_eq hx]
  | succ budget ih =>
      intro count x hx
      obtain ⟨n, hn⟩ := Option.isSome_iff_exists.mp (h.sound.exists_of_mem_preorder hx)
      obtain ⟨n', hn', htype, -⟩ := h.view.exists_node hn
      have hbelow : ∀ count, (g.children x).foldlM (g.checkBelow s expected budget) count =
          (f.children x).foldlM (f.checkBelow s expected budget) count := by
        intro count
        rw [h.view.children_eq]
        exact foldlM_congr (fun c hc count =>
          ih count c (h.sound.mem_preorder_of_mem_children hx hc)) count
      rw [checkBelow, checkBelow, node, node, hn, hn']
      simp only [htype, h.view.publicFacets_eq, h.checkFacets_eq s expected hx, hbelow, bind,
        Except.bind]

theorem checkResolution_eq (h : f.SameTree g root) (s : Selector) (expected : Bool) :
    g.checkResolution root s expected = f.checkResolution root s expected := by
  rw [checkResolution, checkResolution, h.checkTree_eq, h.view.size_eq]
  cases hn : f.get? root with
  | none => simp [checkTree, node, hn, bind, Except.bind]
  | some n =>
      have hroot : root ∈ f.preorder root := h.sound.mem_preorder_self (by simp [hn])
      rw [h.checkBelow_eq s expected f.size 0 root hroot]

/-! ### Documents -/

section

open Document

variable {σ : Type} [Schema σ]

theorem idOf_eq (h : f.SameTree g root) (ids : Naming) (hx : x ∈ f.preorder root) :
    idOf g ids x = idOf f ids x := by
  rw [idOf, idOf, h.label_eq hx]

theorem enterFacet_eq (h : f.SameTree g root) (schema : σ) (ids : Naming) (type : String)
    (r : Record) {facet : Facet} (howned : ∀ c ∈ facet.slot.owned, c ∈ f.preorder root) :
    enterFacet schema g ids type r facet = enterFacet schema f ids type r facet := by
  have hids : facet.slot.owned.mapM (idOf g ids) = facet.slot.owned.mapM (idOf f ids) :=
    mapM_congr fun c hc => h.idOf_eq ids (howned c hc)
  obtain ⟨property, slot⟩ := facet
  cases slot with
  | value v => rfl
  | reference ref => rfl
  | child _ | children _ | ignored =>
      simp only [enterFacet] at hids ⊢
      rw [hids]

theorem recordOf_eq (h : f.SameTree g root) (schema : σ) (ids : Naming)
    (hx : x ∈ f.preorder root) :
    recordOf schema g ids root x = recordOf schema f ids root x := by
  have hsome := h.sound.exists_of_mem_preorder hx
  obtain ⟨n, hn⟩ := Option.isSome_iff_exists.mp hsome
  obtain ⟨n', hn', htype, -⟩ := h.view.exists_node hn
  have hparent : n'.parent = n.parent := by
    rw [← parent?_of_get? hn, ← parent?_of_get? hn', (h.place_eq hx).1]
  -- What the facets own belongs to the tree.
  have hfacets : ∀ r, (f.visible x).foldlM (enterFacet schema g ids n.type) r =
      (f.visible x).foldlM (enterFacet schema f ids n.type) r := by
    refine foldlM_congr fun facet hfacet r => h.enterFacet_eq schema ids n.type r fun c hc => ?_
    exact h.sound.mem_preorder_of_mem_children hx (mem_children_of_mem_owned hfacet hc)
  rw [recordOf, recordOf, node, node, hn, hn', h.view.publicFacets_eq,
    h.sound.publicFacets_eq_visible hsome]
  simp only [htype, hparent, h.pathText_eq hx, h.idOf_eq ids hx, hfacets, bind, Except.bind]

theorem exportTree_eq (h : f.SameTree g root) (schema : σ) (space : String) :
    exportTree schema space g root = exportTree schema space f root := by
  have hrecords : ∀ ids, (f.preorder root).mapM (recordOf schema g ids root) =
      (f.preorder root).mapM (recordOf schema f ids root) :=
    fun ids => mapM_congr fun x hx => h.recordOf_eq schema ids hx
  rw [exportTree, exportTree, h.checkTree_eq, h.view.preorder_eq,
    h.assignIds_eq space fun _ hx => hx]
  simp only [hrecords]

end

end SameTree

end Forest

/-! ### Comparisons -/

namespace Comparison

variable {e e' a a' : Forest}

theorem references_congr (he : e'.label = e.label) (ha : a'.label = a.label) :
    references e' a' = references e a := by
  funext place r s
  cases r <;> cases s <;> simp only [references, he, ha]

theorem slots_congr (he : e'.label = e.label) (ha : a'.label = a.label) (c : Comparison) :
    slots c e' a' = slots c e a := by
  funext node place s s'
  cases s <;> cases s' <;> simp only [slots, he, ha, references_congr he ha]

theorem facets_congr (he : e'.label = e.label) (ha : a'.label = a.label) (c : Comparison) :
    facets c e' a' = facets c e a := by
  funext node place counterparts facet
  rw [facets, facets, slots_congr he ha]

/-- Nodes compare alike with every budget.  What is compared below them is covered by
the induction. -/
theorem nodes_congr (he : e.SameLook e') (ha : a.SameLook a') (c : Comparison) (budget : Nat) :
    c.nodes e' a' budget = c.nodes e a budget := by
  induction budget with
  | zero =>
      funext place x y
      rw [nodes, nodes, he.label_eq]
  | succ budget ih =>
      funext place x y
      rw [nodes, nodes, ih, facets_congr he.label_eq ha.label_eq, he.view.publicFacets_eq,
        ha.view.publicFacets_eq]
      cases hx : e.get? x with
      | none => simp [Forest.node, hx, he.view.get?_eq_none hx, bind, Except.bind]
      | some n =>
          obtain ⟨n', hn', htype, hposition⟩ := he.view.exists_node hx
          cases hy : a.get? y with
          | none => simp [Forest.node, hx, hn', hy, ha.view.get?_eq_none hy, bind, Except.bind]
          | some k =>
              obtain ⟨k', hk', htype', hposition'⟩ := ha.view.exists_node hy
              simp only [Forest.node, hx, hn', hy, hk', htype, hposition, htype', hposition', bind,
                Except.bind]

/-- **Forests that look the same compare alike**, on either side. -/
theorem trees_congr (he : e.SameLook e') (ha : a.SameLook a') (c : Comparison) (x y : NodeId) :
    c.trees e' x a' y = c.trees e x a y := by
  rw [trees, trees, he.view.size_eq, nodes_congr he ha]

end Comparison

end TypedForest
