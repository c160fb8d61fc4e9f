import TypedForest.Proofs.Comparison
import TypedForest.Proofs.View.Hidden

/-!
# What is seen of an edit

Comparing trees looks at the contents of public properties.  An edit refills one slot, so
exactly one of these contents is new.  For the edits that make up a public attribute,
reference or list, this module names the site that they refill and what they put there.

## Main Definitions

* `Forest.SameOutlines`: two forests over one metamodel with the same nodes, slots aside.

## Main Results

* `Sound.exists_site_of_mem_visible`: the slot behind a public facet.
* `Admits.content_refill`, `Admits.mem_visible_refill`: the contents after a refill.
* `Sound.exists_of_setValue`, `Sound.exists_resolve`, `Sound.exists_ignore`: what edits of
  public properties put where.
-/

namespace TypedForest.Forest

variable {f g : Forest} {owner x : NodeId} {site : Site} {slot s : Slot} {p q : Property}

/-! ### Contents -/

theorem HasSlot.content_eq (h : f.HasSlot x site s) (hm : f.metamodel.Built) :
    f.content x site.property = s := by
  obtain ⟨n, t, hn, ht, hsite, hs⟩ := h
  rw [content, slot_of_get? hn ht (hm.nodup_names ht) hsite hs]
  rfl

/-- Every public property of a node has a slot. -/
theorem Sound.exists_hasSlot (hf : f.Sound) (hm : f.metamodel.Built) (hx : (f.get? x).isSome)
    (hq : q ∈ f.metamodel.publicProperties (f.typeOf x)) :
    ∃ j, f.HasSlot x ⟨j, q⟩ (f.content x q) := by
  obtain ⟨n, hn⟩ := Option.isSome_iff_exists.mp hx
  obtain ⟨t, ht, -, hfits⟩ := hf.wellTyped hn
  rw [typeOf_of_get? hn, Metamodel.publicProperties_of_type ht] at hq
  obtain ⟨j, hj⟩ := List.mem_iff_getElem?.mp (List.mem_filter.mp hq).1
  obtain ⟨s, hs, -⟩ := hfits.exists_slot hj
  have hslot : f.HasSlot x ⟨j, q⟩ s := ⟨n, t, hn, ht, hj, hs⟩
  exact ⟨j, (hslot.content_eq hm).symm ▸ hslot⟩

/-- The public facets are the public properties with their contents. -/
theorem Sound.mem_visible_iff (hf : f.Sound) (hm : f.metamodel.Built) :
    ⟨p, s⟩ ∈ f.visible x ↔ (f.get? x).isSome ∧
      p ∈ f.metamodel.publicProperties (f.typeOf x) ∧ f.content x p = s := by
  cases hn : f.get? x with
  | none =>
      simp [visible, publicFacets, facets, node, hn, bind, Except.bind, Except.map,
        Except.toOption]
  | some n =>
      rw [hf.visible_eq hm (by simp [hn]), List.mem_map]
      constructor
      · rintro ⟨q, hq, heq⟩
        obtain ⟨rfl, rfl⟩ := Facet.mk.inj heq
        exact ⟨rfl, hq, rfl⟩
      · rintro ⟨-, hp, rfl⟩
        exact ⟨p, hp, rfl⟩

/-- A property is found where its slot is. -/
theorem HasSlot.locate_eq (h : f.HasSlot x site s) (hm : f.metamodel.Built) :
    f.locate x site.property.name site.property.kind = .ok site := by
  obtain ⟨n, t, hn, ht, hsite, -⟩ := h
  exact locate_of_get? hn ht (hm.nodup_names ht) hsite

/-- **The slot behind a public facet.** -/
theorem Sound.exists_site_of_mem_visible (hf : f.Sound) (hm : f.metamodel.Built)
    (h : ⟨p, s⟩ ∈ f.visible x) :
    ∃ site, site.property = p ∧ f.locate x p.name p.kind = .ok site ∧ f.HasSlot x site s := by
  obtain ⟨hx, hp, rfl⟩ := (hf.mem_visible_iff hm).mp h
  obtain ⟨j, hslot⟩ := hf.exists_hasSlot hm hx hp
  exact ⟨⟨j, p⟩, rfl, hslot.locate_eq hm, hslot⟩

/-- Public references lead to nodes that exist. -/
theorem Sound.isSome_of_target (hf : f.Sound) (hm : f.metamodel.Built) {facet : Facet} {t : NodeId}
    (h : facet ∈ f.visible x) (ht : facet.slot.target? = some t) : (f.get? t).isSome := by
  obtain ⟨site, -, -, n, -, hn, -, -, hs⟩ := hf.exists_site_of_mem_visible hm h
  exact hf.wellFormed.target_mem hn hs ht

theorem HasSlot.slotAt (h : f.HasSlot x site s) (hf : f.Sound) : ∃ n, f.SlotAt x site n s := by
  have hkind := h.kind_eq hf
  obtain ⟨n, t, hn, -, -, hs⟩ := h
  exact ⟨n, hn, hs, hkind⟩

/-- A public facet is found by its name. -/
theorem exists_facet_of_find? (f : Forest) (x : NodeId) (name : String) (s : Slot) (kind : Kind)
    (h : ((f.visible x).find? fun facet => facet.property.name == name).map
      (fun facet => (facet.slot, facet.property.kind)) = some (s, kind)) :
    ∃ p, ⟨p, s⟩ ∈ f.visible x ∧ p.name = name ∧ p.kind = kind := by
  obtain ⟨⟨p, s'⟩, hfind, heq⟩ := Option.map_eq_some_iff.mp h
  obtain ⟨rfl, rfl⟩ := Prod.mk.inj heq
  exact ⟨p, List.mem_of_find?_eq_some hfind, beq_iff_eq.mp (List.find?_some hfind :), rfl⟩

/-! ### Contents after a refill -/

theorem typeOf_refill (f : Forest) (owner : NodeId) (index : Nat) (slot : Slot) :
    (f.refill owner index slot).typeOf = f.typeOf := by
  funext x
  cases hn : f.get? x with
  | none => simp [typeOf, get?_refill, hn]
  | some n => simp [typeOf, get?_refill, hn, refillNode]

/-- **The contents after a refill** are those from before, except for the one that is new. -/
theorem Admits.content_refill (h : f.Admits owner site slot) (hf : f.Sound)
    (hm : f.metamodel.Built) (hx : (f.get? x).isSome)
    (hq : q ∈ f.metamodel.publicProperties (f.typeOf x)) :
    (f.refill owner site.index slot).content x q =
      if x = owner ∧ q = site.property then slot else f.content x q := by
  split
  case isTrue hsame =>
    obtain ⟨rfl, rfl⟩ := hsame
    exact (h.hasSlot hf).content_eq hm
  case isFalse hother =>
    obtain ⟨j, hslot⟩ := hf.exists_hasSlot hm hx hq
    refine (hslot.refill ?_).content_eq hm
    rintro rfl rfl
    obtain ⟨n, t, hn, ht, hsite⟩ := h.site_mem
    obtain ⟨n', t', hn', ht', hj, -⟩ := hslot
    obtain rfl : n = n' := Option.some.inj (hn.symm.trans hn')
    obtain rfl : t = t' := Except.ok.inj (ht.symm.trans ht')
    exact hother ⟨rfl, Option.some.inj (hj.symm.trans hsite)⟩

/-- So are the public facets. -/
theorem Admits.mem_visible_refill (h : f.Admits owner site slot) (hf : f.Sound)
    (hm : f.metamodel.Built) :
    ⟨q, s⟩ ∈ (f.refill owner site.index slot).visible x ↔
      ∃ old, ⟨q, old⟩ ∈ f.visible x ∧
        s = if x = owner ∧ q = site.property then slot else old := by
  rw [(hf.refill h).mem_visible_iff hm, isSome_get?_refill, typeOf_refill, metamodel_refill]
  constructor
  · rintro ⟨hx, hq, rfl⟩
    exact ⟨f.content x q, (hf.mem_visible_iff hm).mpr ⟨hx, hq, rfl⟩,
      h.content_refill hf hm hx hq⟩
  · rintro ⟨old, hold, rfl⟩
    obtain ⟨hx, hq, rfl⟩ := (hf.mem_visible_iff hm).mp hold
    exact ⟨hx, hq, h.content_refill hf hm hx hq⟩

/-! ### Forests with the same nodes -/

/-- Two sound forests over one metamodel, in which the nodes have the same types and
positions. -/
structure SameOutlines (f g : Forest) : Prop extends Comparison.Facing f g where
  outline_eq : ∀ x, (g.get? x).map Node.outline = (f.get? x).map Node.outline

namespace SameOutlines

theorem refl (hf : f.Sound) (hm : f.metamodel.Built) : f.SameOutlines f where
  built := hm
  metamodel_eq := rfl
  left := hf
  right := hf
  outline_eq := fun _ => rfl

theorem exists_node (h : f.SameOutlines g) {n : Node} (hn : f.get? x = some n) :
    ∃ n', g.get? x = some n' ∧ n'.type = n.type ∧ n'.position = n.position :=
  exists_node_of_outline_eq (h.outline_eq x) hn

end SameOutlines

theorem Admits.sameOutlines (h : f.Admits owner site slot) (hf : f.Sound) (hm : f.metamodel.Built) :
    f.SameOutlines (f.refill owner site.index slot) where
  built := hm
  metamodel_eq := rfl
  left := hf
  right := hf.refill h
  outline_eq := outline_refill f owner site.index slot

/-! ### Edits of public properties -/

/-- What giving a public attribute a value puts where. -/
theorem Sound.exists_of_setValue (hf : f.Sound) (hm : f.metamodel.Built) {old v : Value}
    (h : ⟨p, .value old⟩ ∈ f.visible x) (hedit : Edit.setValue x p.name v f = .ok () g) :
    ∃ site, site.property = p ∧ f.HasSlot x site (.value old) ∧ f.Admits x site (.value v) ∧
      g = f.refill x site.index (.value v) := by
  obtain ⟨site, hproperty, hsite, hslot⟩ := hf.exists_site_of_mem_visible hm h
  have hkind : p.kind = .value := by rw [← hproperty, ← hslot.kind_eq hf]; rfl
  rw [hkind] at hsite
  obtain ⟨e, he, rfl⟩ := hf.edit_eq_ok (c := .setValue x p.name v) hedit
  have hadmits := Command.admissible hf he
  obtain ⟨site', hsite', he⟩ := bind_eq_ok.mp he
  obtain ⟨_, -, he⟩ := bind_eq_ok.mp he
  obtain rfl : site = site' := Except.ok.inj (hsite.symm.trans hsite')
  obtain rfl := Except.ok.inj he
  exact ⟨site, hproperty, hslot, hadmits, rfl⟩

/-- Resolving a public reference to a node succeeds, and only the target is new. -/
theorem Sound.exists_resolve (hf : f.Sound) (hm : f.metamodel.Built) {r : NamedRef} {t : NodeId}
    (h : ⟨p, .reference (some r)⟩ ∈ f.visible x) (ht : (f.get? t).isSome) :
    ∃ site, site.property = p ∧ f.HasSlot x site (.reference (some r)) ∧
      f.Admits x site (.reference (some { r with target := some t })) ∧
      Edit.resolve x p.name t f =
        .ok () (f.refill x site.index (.reference (some { r with target := some t }))) := by
  obtain ⟨site, hproperty, hsite, hslot⟩ := hf.exists_site_of_mem_visible hm h
  have hkind : p.kind = .reference := by rw [← hproperty, ← hslot.kind_eq hf]; rfl
  rw [hkind] at hsite
  obtain ⟨n, hat⟩ := hslot.slotAt hf
  obtain ⟨k, hk⟩ := Option.isSome_iff_exists.mp ht
  have heffect : Command.effect f (.resolve x p.name t) =
      .ok (.refilled x site (.reference (some { r with target := some t }))) := by
    simp [Command.effect, Command.retargeted, node_eq_ok.mpr hk, hsite, hat.node_eq, hat.slotAt_eq,
      bind, Except.bind, pure, Except.pure]
  refine ⟨site, hproperty, hslot, Command.admissible hf heffect, ?_⟩
  rw [Edit.resolve_eq hf, heffect]
  rfl

/-- Marking a public list as ignored succeeds. -/
theorem Sound.exists_ignore (hf : f.Sound) (hm : f.metamodel.Built) (h : ⟨p, s⟩ ∈ f.visible x)
    (hkind : p.kind = .multiple) :
    ∃ site, site.property = p ∧ f.HasSlot x site s ∧ f.Admits x site .ignored ∧
      Edit.ignore x p.name f = .ok () (f.refill x site.index .ignored) := by
  obtain ⟨site, hproperty, hsite, hslot⟩ := hf.exists_site_of_mem_visible hm h
  rw [hkind] at hsite
  have heffect : Command.effect f (.ignore x p.name) = .ok (.refilled x site .ignored) := by
    simp [Command.effect, Command.released, hsite, bind, Except.bind, pure, Except.pure]
  refine ⟨site, hproperty, hslot, Command.admissible hf heffect, ?_⟩
  have hedit := Command.edit_eq hf (.ignore x p.name)
  rw [heffect] at hedit
  exact hedit

end TypedForest.Forest
