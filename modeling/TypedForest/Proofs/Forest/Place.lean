import TypedForest.Proofs.Forest.Ancestry
import TypedForest.Proofs.Lookup
import TypedForest.Proofs.Metamodel.Tables

/-!
# Places in trees

In a sound forest every owned node stands in one slot of its parent, at one place
of it.  The step from the parent names that slot and that place, a path is the
path of the parent with one more step, and two nodes of one tree with the same
path are the same node.

## Main Definitions

* `Slot.indexOf?`: the place of a node in a list of children.
* `Forest.HasSlot`: the content of a slot.
* `Forest.Holds`: a slot of a node owns another.

## Main Results

* `Holds.holder?_eq`: the step from the parent names the slot that holds a node.
* `Holds.path_eq`: paths grow by one step.
* `Sound.path_injective`: within a tree, paths determine nodes.
-/

namespace TypedForest

/-- The place of a node in a list of children; a single child has none. -/
def Slot.indexOf? (s : Slot) (c : NodeId) : Option Nat :=
  match s with
  | .children (some cs) => cs.findIdx? fun d => d == c
  | _ => none

/-- A node of a list has a place in it. -/
theorem exists_findIdx?_of_mem {cs : List NodeId} {c : NodeId} (h : c ∈ cs) :
    ∃ i, cs.findIdx? (fun d => d == c) = some i := by
  rw [← Option.isSome_iff_exists, List.findIdx?_isSome, List.any_eq_true]
  exact ⟨c, h, beq_self_eq_true c⟩

/-- The nodes of a slot have different places. -/
theorem Slot.indexOf?_injective {s : Slot} {c d : NodeId} (hc : c ∈ s.owned) (hd : d ∈ s.owned)
    (h : s.indexOf? c = s.indexOf? d) : c = d := by
  cases s with
  | child o =>
      cases o with
      | none => cases hc
      | some e =>
          rw [List.mem_singleton.mp hc, List.mem_singleton.mp hd]
  | children o =>
      cases o with
      | none => cases hc
      | some cs =>
          change c ∈ cs at hc
          change cs.findIdx? (fun e => e == c) = cs.findIdx? (fun e => e == d) at h
          obtain ⟨i, hi⟩ := exists_findIdx?_of_mem hc
          obtain ⟨hlt, hci, -⟩ := List.findIdx?_eq_some_iff_getElem.mp hi
          obtain ⟨_, hdi, -⟩ := List.findIdx?_eq_some_iff_getElem.mp (h.symm.trans hi)
          rw [← eq_of_beq hci, ← eq_of_beq hdi]
  | value v => cases hc
  | ignored => cases hc
  | reference r => cases hc

namespace Forest

variable {f : Forest}

/-- The slot at a site of `p` has the content `s`. -/
def HasSlot (f : Forest) (p : NodeId) (site : Site) (s : Slot) : Prop :=
  ∃ n t, f.get? p = some n ∧ f.metamodel.type n.type = .ok t ∧
    t.effective[site.index]? = some site.property ∧ n.slots[site.index]? = some s

/-- Slot `j` of `p`, which belongs to the property, owns `c`. -/
structure Holds (f : Forest) (p : NodeId) (j : Nat) (property : Property) (s : Slot)
    (c : NodeId) : Prop where
  site : ∃ n t, f.get? p = some n ∧ f.metamodel.type n.type = .ok t ∧
    t.effective[j]? = some property ∧ n.slots[j]? = some s
  mem : c ∈ s.owned

/-- The properties of a node of a sound forest. -/
theorem facets_of_get? {id : NodeId} {n : Node} {t : NodeType} (hn : f.get? id = some n)
    (ht : f.metamodel.type n.type = .ok t) :
    f.facets id = .ok (t.effective.zipWith Facet.mk n.slots) := by
  simp [facets, node, hn, ht, bind, Except.bind, pure, Except.pure]

/-- A property is found at its place in the table. -/
theorem locate_of_get? {id : NodeId} {n : Node} {t : NodeType} {j : Nat} {p : Property}
    (hn : f.get? id = some n) (ht : f.metamodel.type n.type = .ok t)
    (hnodup : (t.effective.map Property.name).Nodup) (hp : t.effective[j]? = some p) :
    f.locate id p.name p.kind = .ok ⟨j, p⟩ := by
  rw [locate, node, hn]
  simp only [bind, Except.bind, ht, NodeType.find?_zipIdx hnodup hp, if_true]

theorem slot_of_get? {id : NodeId} {n : Node} {t : NodeType} {j : Nat} {p : Property} {s : Slot}
    (hn : f.get? id = some n) (ht : f.metamodel.type n.type = .ok t)
    (hnodup : (t.effective.map Property.name).Nodup) (hp : t.effective[j]? = some p)
    (hs : n.slots[j]? = some s) : f.slot id p.name p.kind = .ok s := by
  rw [slot, locate_of_get? hn ht hnodup hp]
  simp [bind, Except.bind, pure, Except.pure, node, hn, Node.slotAt, hs]

theorem mem_zipWith_facet {properties : List Property} {slots : List Slot} {facet : Facet} :
    facet ∈ properties.zipWith Facet.mk slots ↔
      ∃ j : Nat, properties[j]? = some facet.property ∧ slots[j]? = some facet.slot := by
  rw [List.mem_iff_getElem?]
  simp only [List.getElem?_zipWith]
  constructor
  · rintro ⟨j, hj⟩
    cases hp : properties[j]? with
    | none => simp [hp] at hj
    | some p =>
        cases hs : slots[j]? with
        | none => simp [hp, hs] at hj
        | some s =>
            simp only [hp, hs, Option.some.injEq] at hj
            exact ⟨j, by rw [hp, ← hj], by rw [hs, ← hj]⟩
  · rintro ⟨j, hp, hs⟩
    exact ⟨j, by simp [hp, hs]⟩

/-- A slot makes a step to the nodes that it owns. -/
theorem stepIn_eq (c : NodeId) (facet : Facet) :
    stepIn c facet =
      if c ∈ facet.slot.owned then some ⟨facet.property.name, facet.slot.indexOf? c⟩
      else none := by
  obtain ⟨property, slot⟩ := facet
  unfold stepIn
  cases slot with
  | child o =>
      cases o with
      | none => rfl
      | some d => simp [Slot.owned, Slot.indexOf?, eq_comm]
  | children o =>
      cases o with
      | none => rfl
      | some cs =>
          show (cs.findIdx? fun d => d == c).map _ = if c ∈ cs then _ else _
          split
          case isTrue hc =>
            obtain ⟨i, hi⟩ := exists_findIdx?_of_mem hc
            simp [Slot.indexOf?, hi]
          case isFalse hc =>
            rw [List.findIdx?_eq_none_iff.mpr fun d hd => beq_eq_false_iff_ne.mpr
              fun heq : d = c => hc (heq ▸ hd)]
            rfl
  | value v => rfl
  | ignored => rfl
  | reference r => rfl

namespace Holds

variable {p c : NodeId} {j : Nat} {property : Property} {s : Slot}

theorem owns (h : f.Holds p j property s c) : f.Owns p c := by
  obtain ⟨n, t, hn, -, -, hs⟩ := h.site
  exact ⟨n, hn, Node.mem_owned.mpr ⟨j, s, hs, h.mem⟩⟩

theorem parent?_eq (h : f.Holds p j property s c) (hf : f.WellFormed) :
    f.parent? c = some p :=
  hf.parent_iff.mpr h.owns

/-- The step from the parent names the slot that holds a node. -/
theorem holder?_eq (h : f.Holds p j property s c) (hf : f.WellFormed) :
    f.holder? c = some ⟨property.name, s.indexOf? c⟩ := by
  obtain ⟨n, t, hn, ht, hp, hs⟩ := h.site
  have hfound : (t.effective.zipWith Facet.mk n.slots).findSome? (stepIn c) =
      some ⟨property.name, s.indexOf? c⟩ := by
    apply findSome?_eq_of_unique
    · refine ⟨⟨property, s⟩, mem_zipWith_facet.mpr ⟨j, hp, hs⟩, ?_⟩
      rw [stepIn_eq, if_pos h.mem]
    · intro facet hfacet step hstep
      rw [stepIn_eq] at hstep
      split at hstep
      case isTrue hmem =>
        obtain ⟨k, hkp, hks⟩ := mem_zipWith_facet.mp hfacet
        obtain rfl : j = k := hf.slot_unique hn hs hks h.mem hmem
        obtain rfl : property = facet.property := Option.some.inj (hp.symm.trans hkp)
        obtain rfl : s = facet.slot := Option.some.inj (hs.symm.trans hks)
        exact (Option.some.inj hstep).symm
      case isFalse => cases hstep
  simp [holder?, h.parent?_eq hf, facets_of_get? hn ht, Except.toOption, hfound]

end Holds

/-- Every owned node is held by a slot of its parent. -/
theorem Sound.exists_holds (hf : f.Sound) {c p : NodeId} (h : f.parent? c = some p) :
    ∃ j property s, f.Holds p j property s c := by
  obtain ⟨n, hn, hc⟩ := hf.wellFormed.parent_iff.mp h
  obtain ⟨j, s, hs, hmem⟩ := Node.mem_owned.mp hc
  obtain ⟨t, ht, -, hfits⟩ := hf.wellTyped hn
  obtain ⟨property, hp⟩ := hfits.exists_property hs
  exact ⟨j, property, s, ⟨n, t, hn, ht, hp, hs⟩, hmem⟩

/-- The path of a root is empty. -/
theorem Sound.path_of_free (hf : f.Sound) {c : NodeId} (h : f.parent? c = none) :
    f.path c = [] := by
  rw [path, hf.wellFormed.ancestors_of_free h]
  rfl

/-- The path of a child is that of its parent with one more step. -/
theorem Holds.path_eq {p c : NodeId} {j : Nat} {property : Property} {s : Slot}
    (h : f.Holds p j property s c) (hf : f.WellFormed) :
    f.path c = f.path p ++ [⟨property.name, s.indexOf? c⟩] := by
  rw [path, hf.ancestors_cons (h.parent?_eq hf), ascent, h.holder?_eq hf, path]
  simp

theorem HasSlot.nodup_owned {p : NodeId} {site : Site} {s : Slot} (h : f.HasSlot p site s)
    (hf : f.WellFormed) : s.owned.Nodup := by
  obtain ⟨n, t, hn, -, -, hs⟩ := h
  exact (Node.nodup_owned_iff.mp (hf.nodup hn)).1 hs

/-- Slots of one node that belong to properties of one name are the same. -/
theorem HasSlot.eq_of_name {p : NodeId} {site site' : Site} {s s' : Slot}
    (h : f.HasSlot p site s) (h' : f.HasSlot p site' s') (hm : f.metamodel.Built)
    (hname : site.property.name = site'.property.name) : s = s' := by
  obtain ⟨n, t, hn, ht, hp, hs⟩ := h
  obtain ⟨n', t', hn', ht', hp', hs'⟩ := h'
  obtain rfl : n = n' := Option.some.inj (hn.symm.trans hn')
  obtain rfl : t = t' := Except.ok.inj (ht.symm.trans ht')
  rw [index_unique (hm.nodup_names ht) hp hp' hname] at hs
  exact Option.some.inj (hs.symm.trans hs')

theorem Holds.hasSlot {p c : NodeId} {j : Nat} {property : Property} {s : Slot}
    (h : f.Holds p j property s c) : f.HasSlot p ⟨j, property⟩ s :=
  h.site

/-- **Within a tree, paths determine nodes.** -/
theorem Sound.path_injective (hf : f.Sound) (hm : f.metamodel.Built) {a b : NodeId}
    (htop : f.topmost a = f.topmost b) (hpath : f.path a = f.path b) : a = b := by
  have hwf := hf.wellFormed
  induction a using hwf.down_induction generalizing b with
  | root a ha =>
      rw [hf.path_of_free ha] at hpath
      cases hb : f.parent? b with
      | none => rwa [hwf.topmost_of_free ha, hwf.topmost_of_free hb] at htop
      | some q =>
          obtain ⟨j, property, s, hholds⟩ := hf.exists_holds hb
          rw [hholds.path_eq hwf] at hpath
          simp at hpath
  | child a p ha ih =>
      obtain ⟨j, property, s, hholds⟩ := hf.exists_holds ha
      rw [hholds.path_eq hwf] at hpath
      cases hb : f.parent? b with
      | none =>
          rw [hf.path_of_free hb] at hpath
          simp at hpath
      | some q =>
          obtain ⟨k, property', s', hholds'⟩ := hf.exists_holds hb
          rw [hholds'.path_eq hwf] at hpath
          obtain ⟨hup, hstep⟩ := List.append_inj' hpath rfl
          rw [hwf.topmost_of_parent ha, hwf.topmost_of_parent hb] at htop
          obtain rfl : p = q := ih htop hup
          obtain ⟨hname, hindex⟩ : property.name = property'.name ∧
              s.indexOf? a = s'.indexOf? b := by simpa using hstep
          obtain rfl := hholds.hasSlot.eq_of_name hholds'.hasSlot hm hname
          exact Slot.indexOf?_injective hholds.mem hholds'.mem hindex

end Forest

end TypedForest
