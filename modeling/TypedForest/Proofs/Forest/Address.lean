import TypedForest.Proofs.Forest.Place
import TypedForest.Proofs.Forest.Program

/-!
# The property that a command is about

Apart from those that make nodes or place them, a command names a node and one of its
properties.  When it succeeds, the slot of this property has new content and every other
slot of the forest is as before.

## Main Definitions

* `Command.address?`: the property that a command is about.
* `Forest.HeldAt`: the slot at a site holds a node.

## Main Results

* `Forest.Sound.exists_refill`: a command that succeeds refills the slot of its property.
* `Forest.HasSlot.edit`: it leaves the slots of all other properties as they are.
-/

namespace TypedForest

/-- A property of a node, as commands name it. -/
structure Address where
  owner : NodeId
  property : String
  kind : Kind
deriving DecidableEq, Repr

namespace Command

/-- The property that a command is about. -/
def address? : Command → Option Address
  | .create _ => none
  | .setPosition _ _ => none
  | .setValue node property _ => some ⟨node, property, .value⟩
  | .setChild owner property _ => some ⟨owner, property, .single⟩
  | .append owner property _ => some ⟨owner, property, .multiple⟩
  | .clear owner property => some ⟨owner, property, .multiple⟩
  | .ignore owner property => some ⟨owner, property, .multiple⟩
  | .setReference node property _ => some ⟨node, property, .reference⟩
  | .resolve node property _ => some ⟨node, property, .reference⟩
  | .unresolve node property => some ⟨node, property, .reference⟩

variable {f : Forest} {e : Effect} {owner : NodeId} {property : String}

/-- The effect is new content for the property. -/
structure Refills (f : Forest) (a : Address) (e : Effect) (site : Site) (slot : Slot) : Prop where
  site_eq : f.locate a.owner a.property a.kind = .ok site
  effect_eq : e = .refilled a.owner site slot

theorem exists_refills_setChild {child : Option NodeId}
    (h : effect f (.setChild owner property child) = .ok e) :
    ∃ site, Refills f ⟨owner, property, .single⟩ e site (.child child) := by
  obtain ⟨site, hsite, h⟩ := bind_eq_ok.mp h
  obtain ⟨n, -, h⟩ := bind_eq_ok.mp h
  split at h
  · exact ⟨site, hsite, (Except.ok.inj h).symm⟩
  · obtain ⟨_, -, h⟩ := bind_eq_ok.mp h
    exact ⟨site, hsite, (Except.ok.inj h).symm⟩

theorem exists_refills_append {child : NodeId}
    (h : effect f (.append owner property child) = .ok e) :
    ∃ site n, f.get? owner = some n ∧
      Refills f ⟨owner, property, .multiple⟩ e site
        (.children (some ((n.slotAt site).listed ++ [child]))) := by
  obtain ⟨site, hsite, h⟩ := bind_eq_ok.mp h
  obtain ⟨_, -, h⟩ := bind_eq_ok.mp h
  obtain ⟨n, hn, h⟩ := bind_eq_ok.mp h
  exact ⟨site, n, Forest.node_eq_ok.mp hn, hsite, (Except.ok.inj h).symm⟩

theorem exists_refills_released {slot : Slot} (h : released f owner property slot = .ok e) :
    ∃ site, Refills f ⟨owner, property, .multiple⟩ e site slot := by
  obtain ⟨site, hsite, h⟩ := bind_eq_ok.mp h
  exact ⟨site, hsite, (Except.ok.inj h).symm⟩

theorem exists_refills_retargeted {target : Option NodeId}
    (h : retargeted f owner property target = .ok e) :
    ∃ site slot, Refills f ⟨owner, property, .reference⟩ e site slot := by
  obtain ⟨site, hsite, h⟩ := bind_eq_ok.mp h
  obtain ⟨n, -, h⟩ := bind_eq_ok.mp h
  split at h
  · exact ⟨site, _, hsite, (Except.ok.inj h).symm⟩
  · cases h

/-- What a command does is done to the property that it is about. -/
theorem exists_refills {c : Command} {a : Address} (hc : c.address? = some a)
    (h : c.effect f = .ok e) : ∃ site slot, Refills f a e site slot := by
  cases c with
  | create type => cases hc
  | setPosition node position => cases hc
  | setValue node property v =>
      obtain rfl := Option.some.inj hc
      obtain ⟨site, hsite, h⟩ := bind_eq_ok.mp h
      obtain ⟨_, -, h⟩ := bind_eq_ok.mp h
      exact ⟨site, _, hsite, (Except.ok.inj h).symm⟩
  | setChild owner property child =>
      obtain rfl := Option.some.inj hc
      obtain ⟨site, hrefills⟩ := exists_refills_setChild h
      exact ⟨site, _, hrefills⟩
  | append owner property child =>
      obtain rfl := Option.some.inj hc
      obtain ⟨site, n, -, hrefills⟩ := exists_refills_append h
      exact ⟨site, _, hrefills⟩
  | clear owner property =>
      obtain rfl := Option.some.inj hc
      obtain ⟨site, hrefills⟩ := exists_refills_released h
      exact ⟨site, _, hrefills⟩
  | ignore owner property =>
      obtain rfl := Option.some.inj hc
      obtain ⟨site, hrefills⟩ := exists_refills_released h
      exact ⟨site, _, hrefills⟩
  | setReference node property reference =>
      obtain rfl := Option.some.inj hc
      obtain ⟨site, hsite, h⟩ := bind_eq_ok.mp h
      obtain ⟨_, -, h⟩ := bind_eq_ok.mp h
      exact ⟨site, _, hsite, (Except.ok.inj h).symm⟩
  | resolve node property target =>
      obtain rfl := Option.some.inj hc
      obtain ⟨_, -, h⟩ := bind_eq_ok.mp h
      exact exists_refills_retargeted h
  | unresolve node property =>
      obtain rfl := Option.some.inj hc
      exact exists_refills_retargeted h

end Command

namespace Forest

variable {f g : Forest} {p owner x : NodeId} {site : Site} {slot : Slot}

/-- **A command that succeeds refills the slot of its property.** -/
theorem Sound.exists_refill (hf : f.Sound) {c : Command} {a : Address} {u : Unit}
    (hc : c.address? = some a) (h : c.edit f = .ok u g) :
    ∃ site slot, f.locate a.owner a.property a.kind = .ok site ∧
      c.effect f = .ok (.refilled a.owner site slot) ∧ f.Admits a.owner site slot ∧
      g = f.refill a.owner site.index slot := by
  obtain ⟨e, he, rfl⟩ := hf.edit_eq_ok h
  obtain ⟨site, slot, hsite, rfl⟩ := Command.exists_refills hc he
  exact ⟨site, slot, hsite, he, Command.admissible hf he, rfl⟩

/-- The slot at the site holds the node. -/
def HeldAt (f : Forest) (p : NodeId) (site : Site) (x : NodeId) : Prop :=
  ∃ s, f.HasSlot p site s ∧ x ∈ s.owned

theorem get?_refill_of_get? {n : Node} (hn : f.get? x = some n) (owner : NodeId) (index : Nat)
    (slot : Slot) : (f.refill owner index slot).get? x =
      some (refillNode owner index slot (f.ownedAt owner index) x n) := by
  rw [get?_refill, hn]
  rfl

/-- A refill puts the content into the slot. -/
theorem Admits.hasSlot (h : f.Admits owner site slot) (hf : f.Sound) :
    (f.refill owner site.index slot).HasSlot owner site slot := by
  obtain ⟨n, t, hn, ht, hsite⟩ := h.site_mem
  obtain ⟨t', ht', -, hfits⟩ := hf.wellTyped hn
  obtain rfl : t = t' := Except.ok.inj (ht.symm.trans ht')
  obtain ⟨s, hs, -⟩ := hfits.exists_slot hsite
  have hlt := (List.getElem?_eq_some_iff.mp hs).1
  exact ⟨_, t, get?_refill_of_get? hn _ _ _, ht, hsite, by simp [refillNode, hlt]⟩

namespace HasSlot

variable {s : Slot}

/-- A refill of another slot leaves a slot as it is. -/
theorem refill (h : f.HasSlot p site s) {index : Nat} (hother : owner = p → index ≠ site.index) :
    (f.refill owner index slot).HasSlot p site s := by
  obtain ⟨n, t, hn, ht, hsite, hs⟩ := h
  refine ⟨_, t, get?_refill_of_get? hn owner index slot, ht, hsite, ?_⟩
  rw [refillNode]
  dsimp only
  split
  case isTrue howner => rw [List.getElem?_set_ne (hother howner.symm), hs]
  case isFalse => exact hs

theorem kind_eq (h : f.HasSlot p site s) (hf : f.Sound) : s.kind = site.property.kind := by
  obtain ⟨n, t, hn, ht, hsite, hs⟩ := h
  obtain ⟨t', ht', -, hfits⟩ := hf.wellTyped hn
  obtain rfl : t = t' := Except.ok.inj (ht.symm.trans ht')
  exact (hfits.accepts hsite hs).kind_eq

/-- A site that is found in the place of another is the same. -/
theorem site_eq (h : f.HasSlot p site s) {name : String} {kind : Kind} {site' : Site}
    (hsite' : f.locate p name kind = .ok site') (hindex : site'.index = site.index) :
    site' = site := by
  obtain ⟨n, t, hn, ht, hsite, -⟩ := h
  obtain ⟨n', t', hn', ht', hat, -⟩ := locate_eq_ok hsite'
  obtain rfl : n = n' := Option.some.inj (hn.symm.trans hn')
  obtain rfl : t = t' := Except.ok.inj (ht.symm.trans ht')
  rw [hindex, hsite] at hat
  obtain ⟨index, property⟩ := site'
  obtain ⟨index', property'⟩ := site
  rw [Site.mk.injEq]
  exact ⟨hindex, (Option.some.inj hat).symm⟩

/-- **A command leaves the slots of all other properties as they are.**  If it is about the
property of the slot, then its effect is new content there. -/
theorem edit (h : f.HasSlot p site s) (hf : f.Sound) {c : Command} {a : Address} {u : Unit}
    (hc : c.address? = some a) (hedit : c.edit f = .ok u g) :
    g.HasSlot p site s ∨
      a = ⟨p, site.property.name, site.property.kind⟩ ∧
        ∃ slot, c.effect f = .ok (.refilled p site slot) ∧ g.HasSlot p site slot := by
  obtain ⟨site', slot, hsite', heffect, hadmits, rfl⟩ := hf.exists_refill hc hedit
  by_cases hsame : a.owner = p ∧ site'.index = site.index
  · obtain ⟨owner, property, kind⟩ := a
    obtain ⟨rfl, hindex⟩ := hsame
    obtain rfl := h.site_eq hsite' hindex
    obtain ⟨n, t, -, -, -, hkind, hname⟩ := locate_eq_ok hsite'
    rw [hkind, hname]
    exact .inr ⟨rfl, slot, heffect, hadmits.hasSlot hf⟩
  · exact .inl (h.refill fun howner hindex => hsame ⟨howner, hindex⟩)

end HasSlot

theorem Holds.refill {j index : Nat} {property : Property} {s : Slot}
    (h : f.Holds p j property s x) (hother : owner = p → index ≠ j) :
    (f.refill owner index slot).Holds p j property s x :=
  ⟨h.hasSlot.refill hother, h.mem⟩

/-- Nodes are held by containments only. -/
theorem HeldAt.kind_eq (h : f.HeldAt p site x) (hf : f.Sound) :
    site.property.kind = .single ∨ site.property.kind = .multiple := by
  obtain ⟨s, hslot, hx⟩ := h
  rw [← hslot.kind_eq hf]
  cases hkind : s.kind with
  | single => exact .inl rfl
  | multiple => exact .inr rfl
  | value =>
      rw [Slot.owned_of_kind_value hkind] at hx
      cases hx
  | reference =>
      rw [Slot.owned_of_kind_reference hkind] at hx
      cases hx

end Forest

end TypedForest
