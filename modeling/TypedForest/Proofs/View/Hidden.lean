import TypedForest.Proofs.Document.RoundTrip
import TypedForest.Proofs.Forest.Release
import TypedForest.Proofs.View.Congruence

/-!
# Hidden properties are not seen

Hidden and derived properties take part in containment: they may own nodes, a node below
them has a path that names them, and references may lead there.  Still, changing one is
not seen from outside.  The change refills a slot that no public facet shows, so the view
of the forest stays, and whatever starts at a root that is free before and after has the
same outcome.

Comparing trees may mention a node anywhere in the forest.  A hidden containment
can change the path of such a node, but a hidden attribute or reference cannot.

## Main Definitions

* `Forest.ShowsSame`: all that starts at a root has the same outcome in two forests.

## Main Results

* `Admits.sameView`: refilling a hidden slot keeps the view.
* `Admits.sameLook`: refilling a hidden attribute or reference keeps the labels too.
* `hidden_edit_unseen`: commands for hidden properties are not seen.
-/

namespace TypedForest

/-- A property that is hidden or derived is not public. -/
theorem Property.isPublic_eq_false {p : Property} (h : p.visibility = .hidden ∨ p.derived = true) :
    p.isPublic = false := by
  rcases h with h | h <;> simp [isPublic, h]

namespace Forest

variable {f g : Forest} {owner root x : NodeId} {site : Site} {slot : Slot}

/-- Walks, checks, identifiers by path and documents are the same from the root, errors
included. -/
structure ShowsSame (f g : Forest) (root : NodeId) : Prop where
  preorder_eq : g.preorder root = f.preorder root
  postorder_eq : g.postorder root = f.postorder root
  checkTree_eq : g.checkTree root = f.checkTree root
  assignIds_eq : ∀ (space : String) (order : Traversal),
    g.assignIds root (g.traverse order root) (.structural space) () =
      f.assignIds root (f.traverse order root) (.structural space) ()
  checkResolution_eq : ∀ (s : Selector) (expected : Bool),
    g.checkResolution root s expected = f.checkResolution root s expected
  exportTree_eq : ∀ {σ : Type} [Schema σ] (schema : σ) (space : String),
    Document.exportTree schema space g root = Document.exportTree schema space f root

theorem SameTree.showsSame (h : f.SameTree g root) : ShowsSame f g root where
  preorder_eq := h.view.preorder_eq root
  postorder_eq := h.view.postorder_eq root
  checkTree_eq := h.checkTree_eq
  assignIds_eq := by
    intro space order
    rw [h.view.traverse_eq, h.assignIds_eq space fun x hx =>
      (h.sound.perm_traverse order root).mem_iff.mpr hx]
  checkResolution_eq := h.checkResolution_eq
  exportTree_eq := h.exportTree_eq

/-! ### Refills of hidden slots -/

/-- A refill keeps types and positions. -/
theorem outline_refill (f : Forest) (owner : NodeId) (index : Nat) (slot : Slot) (x : NodeId) :
    ((f.refill owner index slot).get? x).map Node.outline = (f.get? x).map Node.outline := by
  rw [get?_refill, Option.map_map]
  rfl

/-- The content of a hidden property is not among the public facets. -/
theorem filter_zipWith_set {properties : List Property} {i : Nat} {p : Property}
    (hp : properties[i]? = some p) (hhidden : p.isPublic = false) (slots : List Slot)
    (slot : Slot) :
    (properties.zipWith Facet.mk (slots.set i slot)).filter (fun facet => facet.property.isPublic) =
      (properties.zipWith Facet.mk slots).filter fun facet => facet.property.isPublic := by
  induction properties generalizing slots i with
  | nil => rfl
  | cons q properties ih =>
      cases slots with
      | nil => rfl
      | cons s slots =>
          cases i with
          | zero =>
              obtain rfl : q = p := Option.some.inj hp
              simp [hhidden]
          | succ i =>
              rw [List.set_cons_succ, List.zipWith_cons_cons, List.zipWith_cons_cons,
                List.filter_cons, List.filter_cons, ih hp]

/-- **Refilling a hidden slot keeps the view.** -/
theorem Admits.sameView (h : f.Admits owner site slot) (hf : f.Sound)
    (hhidden : site.property.isPublic = false) :
    f.SameView (f.refill owner site.index slot) where
  metamodel_eq := rfl
  size_eq := f.size_refill _ _ _
  outline_eq := outline_refill f owner site.index slot
  publicFacets_eq := by
    intro x
    cases hn : f.get? x with
    | none =>
        have hn' : (f.refill owner site.index slot).get? x = none := by rw [get?_refill, hn]; rfl
        simp [publicFacets, facets, node, hn, hn', bind, Except.bind]
    | some n =>
        obtain ⟨t, ht, -, -⟩ := hf.wellTyped hn
        rw [publicFacets_of_get? hn ht,
          publicFacets_of_get? (get?_refill_of_get? hn owner site.index slot) ht, refillNode]
        dsimp only
        split
        case isTrue howner =>
          obtain ⟨n', t', hn', ht', hsite⟩ := h.site_mem
          obtain rfl : n = n' := Option.some.inj (hn.symm.trans (howner ▸ hn'))
          obtain rfl : t = t' := Except.ok.inj (ht.symm.trans ht')
          rw [filter_zipWith_set hsite hhidden]
        case isFalse => rfl

/-- The slot of an attribute or a reference owns nothing. -/
theorem Admits.not_mem_ownedAt (h : f.Admits owner site slot) (hf : f.Sound)
    (hkind : site.property.kind = .value ∨ site.property.kind = .reference) (x : NodeId) :
    x ∉ f.ownedAt owner site.index := by
  intro hx
  obtain ⟨n, s, hn, hs, hx⟩ := mem_ownedAt.mp hx
  obtain ⟨n', t, hn', ht, hsite⟩ := h.site_mem
  obtain rfl : n = n' := Option.some.inj (hn.symm.trans hn')
  have hheld : f.HeldAt owner site x := ⟨s, ⟨n, t, hn, ht, hsite, hs⟩, hx⟩
  rcases hheld.kind_eq hf with hcontains | hcontains <;> simp [hcontains] at hkind

/-- Nor does its new content. -/
theorem Admits.owned_eq_nil (h : f.Admits owner site slot)
    (hkind : site.property.kind = .value ∨ site.property.kind = .reference) :
    slot.owned = [] := by
  rw [← h.kind_eq] at hkind
  exact hkind.elim Slot.owned_of_kind_value Slot.owned_of_kind_reference

/-- So refilling it releases nothing, and no node moves. -/
theorem Admits.path_eq (h : f.Admits owner site slot) (hf : f.Sound)
    (hkind : site.property.kind = .value ∨ site.property.kind = .reference) (x : NodeId) :
    (f.refill owner site.index slot).path x = f.path x := by
  refine h.path_of_not_inside hf (h.owned_eq_nil hkind) ?_
  rintro ⟨d, hd, -⟩
  exact h.not_mem_ownedAt hf hkind d hd

/-- So nodes are labelled as before. -/
theorem Admits.label_eq (h : f.Admits owner site slot) (hf : f.Sound)
    (hkind : site.property.kind = .value ∨ site.property.kind = .reference) :
    (f.refill owner site.index slot).label = f.label := by
  funext x
  rw [label, label, pathText, pathText, h.path_eq hf hkind]
  cases hn : f.get? x with
  | none => simp [get?_refill, hn]
  | some n => simp [get?_refill_of_get? hn, refillNode]

/-- **Refilling a hidden attribute or reference keeps the labels too.** -/
theorem Admits.sameLook (h : f.Admits owner site slot) (hf : f.Sound)
    (hhidden : site.property.isPublic = false)
    (hkind : site.property.kind = .value ∨ site.property.kind = .reference) :
    f.SameLook (f.refill owner site.index slot) where
  view := h.sameView hf hhidden
  label_eq := h.label_eq hf hkind

/-! ### Commands for hidden properties -/

/-- The site that is found for a property of the node belongs to this property. -/
theorem property_eq_of_locate (hm : f.metamodel.Built) {n : Node} {t : NodeType}
    {p : Property} {kind : Kind} (hn : f.get? owner = some n) (ht : f.metamodel.type n.type = .ok t)
    (hp : p ∈ t.effective) (hsite : f.locate owner p.name kind = .ok site) :
    site.property = p := by
  obtain ⟨n', t', hn', ht', hat, -, hname⟩ := locate_eq_ok hsite
  obtain rfl : n = n' := Option.some.inj (hn.symm.trans hn')
  obtain rfl : t = t' := Except.ok.inj (ht.symm.trans ht')
  have hfound := NodeType.property?_eq_some (hm.nodup_names ht) (List.mem_of_getElem? hat)
  rw [hname, NodeType.property?_eq_some (hm.nodup_names ht) hp] at hfound
  exact (Option.some.inj hfound).symm

open Document (itemForest itemForest_reachable itemModel itemModel_built)

/-- The table of items has a hidden containment and a derived attribute. -/
theorem exists_hidden_item : ∃ t p q, itemModel.type "Item" = .ok t ∧ p ∈ t.effective ∧
    q ∈ t.effective ∧ (p.name = "shadow" ∧ p.visibility = .hidden) ∧
    q.name = "total" ∧ q.derived = true ∧ q.kind = .value := by
  have htype : (itemModel.type "Item").toOption.map (fun t =>
      ((t.property? "shadow").map fun p => (p.name, p.visibility),
        (t.property? "total").map fun q => (q.name, q.derived, q.kind))) =
      some (some ("shadow", .hidden), some ("total", true, .value)) := by decide +kernel
  obtain ⟨t, ht, heq⟩ := exists_of_toOption htype
  obtain ⟨hshadow, htotal⟩ := Prod.mk.inj heq
  obtain ⟨p, hp, hshadow⟩ := Option.map_eq_some_iff.mp hshadow
  obtain ⟨q, hq, htotal⟩ := Option.map_eq_some_iff.mp htotal
  exact ⟨t, p, q, ht, List.mem_of_find?_eq_some hp, List.mem_of_find?_eq_some hq,
    by simpa using hshadow, by simpa using htotal⟩

/-- **Commands for hidden properties are not seen.**  Take any forest that edits lead to, a
property of a node that is hidden or derived, and a command for it that succeeds.  From
every root that is free before and after, walks, checks, identifiers by path and documents
are the same.  If the property is an attribute or a reference, then so is every
comparison with another tree, on either side. -/
theorem hidden_edit_unseen {m : Metamodel} (hm : m.Built) {f g : Forest} (hf : Reachable m f)
    {c : Command} {a : Address} (hc : c.address? = some a) {n : Node} {t : NodeType} {p : Property}
    (hn : f.get? a.owner = some n) (ht : m.type n.type = .ok t) (hp : p ∈ t.effective)
    (hname : a.property = p.name) (hhidden : p.visibility = .hidden ∨ p.derived = true)
    (h : c.edit f = .ok () g) {root : NodeId} (hfree : f.parent? root = none)
    (hfree' : g.parent? root = none) :
    ShowsSame f g root ∧
      (p.kind = .value ∨ p.kind = .reference →
        ∀ (comparison : Comparison) (other : Forest) (x : NodeId),
          comparison.trees g root other x = comparison.trees f root other x ∧
          comparison.trees other x g root = comparison.trees other x f root) := by
  have hsound := hf.sound
  have hmetamodel := hf.metamodel_eq
  obtain ⟨site, slot, hsite, -, hadmits, rfl⟩ := hsound.exists_refill hc h
  rw [hname] at hsite
  obtain rfl := property_eq_of_locate (hmetamodel ▸ hm) hn (hmetamodel ▸ ht) hp hsite
  have hpublic := Property.isPublic_eq_false hhidden
  have htree : f.SameTree (f.refill a.owner site.index slot) root :=
    ⟨hadmits.sameView hsound hpublic, hsound, hsound.refill hadmits, hfree, hfree'⟩
  refine ⟨htree.showsSame, fun hkind comparison other x => ?_⟩
  have hlook := hadmits.sameLook hsound hpublic hkind
  have hother : other.SameLook other := ⟨.refl other, rfl⟩
  exact ⟨Comparison.trees_congr hlook hother comparison root x,
    Comparison.trees_congr hother hlook comparison x root⟩

/-- An item gives up its hidden child, and a derived attribute of the root gets a value. -/
theorem hidden_edit_unseen_items :
    (∃ g, (Command.setChild ⟨2⟩ "shadow" none).edit itemForest = .ok () g ∧
      g.parent? ⟨4⟩ = none ∧ ShowsSame itemForest g ⟨0⟩) ∧
    ∃ g, (Command.setValue ⟨0⟩ "total" (.bool true)).edit itemForest = .ok () g ∧
      (g.value ⟨0⟩ "total").toOption = some (.bool true) ∧ ShowsSame itemForest g ⟨0⟩ ∧
      ∀ (comparison : Comparison) (other : Forest) (x : NodeId),
        comparison.trees g ⟨0⟩ other x = comparison.trees itemForest ⟨0⟩ other x ∧
        comparison.trees other x g ⟨0⟩ = comparison.trees other x itemForest ⟨0⟩ := by
  have hsound := itemForest_reachable.sound
  have hfree : itemForest.parent? ⟨0⟩ = none := by decide +kernel
  obtain ⟨t, p, q, ht, hp, hq, ⟨hpname, hhidden⟩, hqname, hderived, hkind⟩ := exists_hidden_item
  have htypes : (itemForest.get? ⟨2⟩).map Node.type = some "Item" ∧
      (itemForest.get? ⟨0⟩).map Node.type = some "Item" := by decide +kernel
  obtain ⟨n, hn, hntype⟩ := Option.map_eq_some_iff.mp htypes.1
  obtain ⟨k, hk, hktype⟩ := Option.map_eq_some_iff.mp htypes.2
  have hshadow : (Command.setChild ⟨2⟩ "shadow" none).address? =
      some ⟨⟨2⟩, "shadow", .single⟩ := rfl
  have htotal : (Command.setValue ⟨0⟩ "total" (.bool true)).address? =
      some ⟨⟨0⟩, "total", .value⟩ := rfl
  obtain ⟨g, hedit, heq⟩ := hsound.exists_edit_of_effect
    (k := fun g => (g.parent? ⟨0⟩, g.parent? ⟨4⟩)) (c := .setChild ⟨2⟩ "shadow" none)
    (b := (none, none)) (by decide +kernel)
  obtain ⟨hfree', hgone⟩ := Prod.mk.inj heq
  obtain ⟨g', hedit', heq'⟩ := hsound.exists_edit_of_effect
    (k := fun g => (g.parent? ⟨0⟩, (g.value ⟨0⟩ "total").toOption))
    (c := .setValue ⟨0⟩ "total" (.bool true)) (b := (none, some (.bool true))) (by decide +kernel)
  obtain ⟨hfree'', hvalue⟩ := Prod.mk.inj heq'
  have hchild := hidden_edit_unseen itemModel_built itemForest_reachable hshadow hn
    (hntype ▸ ht) hp hpname.symm (.inl hhidden) hedit hfree hfree'
  have hattribute := hidden_edit_unseen itemModel_built itemForest_reachable htotal hk
    (hktype ▸ ht) hq hqname.symm (.inr hderived) hedit' hfree hfree''
  exact ⟨⟨g, hedit, hgone, hchild.1⟩, g', hedit', hvalue, hattribute.1, hattribute.2 (.inl hkind)⟩

end Forest

end TypedForest
