import Mathlib.Data.List.Forall2
import TypedForest.Comparison
import TypedForest.Proofs.Document.RoundTrip

/-!
# Comparing trees is comparing walks

A comparison goes down two trees at once and stops at the first difference.  What it
decides can be said without any recursion: the two walks are equally long, and node by
node they agree in type, position and the contents of the public properties.

Going from the recursion to the walks takes two steps.  One level of the comparison
compares the two nodes and then, in order, their children (`nodes_succ_eq_ok_iff`).  And
if two walks agree node by node, then they agree tree by tree: nodes that agree have
equally many children, so the number of nodes below them need not be known to tell where
the trees end (`Facing.split`).

## Main Definitions

* `Comparison.SlotsAgree`: contents agree, the nodes below left aside.
* `Comparison.Alike`: nodes agree, the nodes below left aside.
* `Comparison.Facing`: two forests over one metamodel.

## Main Results

* `Comparison.slots_eq_ok_iff`: what comparing slots decides.
* `Facing.nodes_succ_eq_ok_iff`: one level of the comparison.
* `Facing.split`: the trees of two walks.
* `Facing.nodes_eq_ok_iff`: all levels of the comparison.
* `Comparison.trees_eq_ok_iff`: comparing trees is comparing walks.
-/

namespace TypedForest

/-- The public properties of a type, in the order of its table. -/
def Metamodel.publicProperties (m : Metamodel) (type : String) : List Property :=
  ((m.type? type).map fun t => t.effective.filter Property.isPublic).getD []

/-- What a property of a node holds. -/
def Forest.content (f : Forest) (v : NodeId) (p : Property) : Slot :=
  ((f.slot v p.name p.kind).toOption).getD (.empty p.kind)

namespace Comparison

variable {c : Comparison} {expected actual : Forest} {e a : NodeId}

/-- The contents agree, the nodes below left aside: equal values, children on both sides
or on none, lists of equal length or none at all, references of one name whose targets
have the same description. -/
def SlotsAgree (c : Comparison) (expected actual : Forest) : Slot → Slot → Prop
  | .value v, .value w => if c.lightweight then v.wire = w.wire else v.equal w = true
  | .child e, .child a => e.isSome = a.isSome
  | .children es, .children as => es.map List.length = as.map List.length
  | .reference r, .reference q =>
      r.map (fun r => (r.name, r.target.map expected.label)) =
        q.map fun q => (q.name, q.target.map actual.label)
  | _, _ => False

/-- The nodes agree, the nodes below left aside. -/
structure Alike (c : Comparison) (expected actual : Forest) (e a : NodeId) : Prop where
  type_eq : expected.typeOf e = actual.typeOf a
  position_eq : c.positions = true →
    (expected.get? e).bind Node.position = (actual.get? a).bind Node.position
  slots : ∀ p ∈ expected.metamodel.publicProperties (expected.typeOf e),
    ∃ s t, expected.slot e p.name p.kind = .ok s ∧ actual.slot a p.name p.kind = .ok t ∧
      c.SlotsAgree expected actual s t

/-- The two forests are over one metamodel, and both are in order. -/
structure Facing (expected actual : Forest) : Prop where
  built : expected.metamodel.Built
  metamodel_eq : actual.metamodel = expected.metamodel
  left : expected.Sound
  right : actual.Sound

/-! ### Lists -/

section

variable {α β γ δ : Type} {R : α → β → Prop}

/-- Lists of equal length at the front are compared for themselves. -/
theorem forall₂_append_iff {l₁ l₂ : List α} {k₁ k₂ : List β} (h : l₁.length = k₁.length) :
    List.Forall₂ R (l₁ ++ l₂) (k₁ ++ k₂) ↔ List.Forall₂ R l₁ k₁ ∧ List.Forall₂ R l₂ k₂ := by
  induction l₁ generalizing k₁ with
  | nil =>
      obtain rfl := List.length_eq_zero_iff.mp h.symm
      simp
  | cons a l₁ ih =>
      cases k₁ with
      | nil => cases h
      | cons b k₁ =>
          rw [List.cons_append, List.cons_append, List.forall₂_cons, List.forall₂_cons,
            ih (Nat.succ.inj h), and_assoc]

theorem forall₂_flatMap_iff {l : List γ} {g : γ → List α} {k : γ → List β}
    (h : ∀ x ∈ l, (g x).length = (k x).length) :
    List.Forall₂ R (l.flatMap g) (l.flatMap k) ↔ ∀ x ∈ l, List.Forall₂ R (g x) (k x) := by
  induction l with
  | nil => simp
  | cons x l ih =>
      rw [List.flatMap_cons, List.flatMap_cons, forall₂_append_iff (h x List.mem_cons_self),
        ih fun y hy => h y (List.mem_cons_of_mem _ hy), List.forall_mem_cons]

/-- Lists that are related when put together are related one by one, provided that it
can be told where each of them ends. -/
theorem forall₂_of_flatMap_append {l : List γ} {k : List δ} {g : γ → List α} {g' : δ → List β}
    (hlength : l.length = k.length)
    (hsplit : ∀ x ∈ l, ∀ y ∈ k, ∀ {rest rest'}, List.Forall₂ R (g x ++ rest) (g' y ++ rest') →
      List.Forall₂ R (g x) (g' y) ∧ List.Forall₂ R rest rest')
    {rest : List α} {rest' : List β}
    (h : List.Forall₂ R (l.flatMap g ++ rest) (k.flatMap g' ++ rest')) :
    List.Forall₂ (fun x y => List.Forall₂ R (g x) (g' y)) l k ∧ List.Forall₂ R rest rest' := by
  induction l generalizing k with
  | nil =>
      obtain rfl := List.length_eq_zero_iff.mp hlength.symm
      exact ⟨.nil, h⟩
  | cons x l ih =>
      cases k with
      | nil => cases hlength
      | cons y k =>
          rw [List.flatMap_cons, List.flatMap_cons, List.append_assoc, List.append_assoc] at h
          obtain ⟨hfirst, hnext⟩ := hsplit x List.mem_cons_self y List.mem_cons_self h
          obtain ⟨hothers, hrest⟩ := ih (Nat.succ.inj hlength) (fun x' hx' y' hy' =>
            hsplit x' (List.mem_cons_of_mem _ hx') y' (List.mem_cons_of_mem _ hy')) hnext
          exact ⟨.cons hfirst hothers, hrest⟩

theorem forM_eq_ok_iff {act : α → Except Error Unit} {l : List α} :
    l.forM act = .ok () ↔ ∀ x ∈ l, act x = .ok () := by
  induction l with
  | nil => exact ⟨fun _ => by simp, fun _ => rfl⟩
  | cons x l ih =>
      rw [List.forall_mem_cons, ← ih]
      change (act x >>= fun _ => l.forM act) = .ok () ↔ _
      rw [bind_eq_ok]
      exact ⟨fun ⟨_, hx, hl⟩ => ⟨hx, hl⟩, fun ⟨hx, hl⟩ => ⟨(), hx, hl⟩⟩

end

/-! ### Slots -/

theorem SlotsAgree.length_owned {s t : Slot} (h : c.SlotsAgree expected actual s t) :
    s.owned.length = t.owned.length := by
  cases s with
  | value =>
      cases t with
      | value => rfl
      | _ => cases h
  | child e =>
      cases t with
      | child a =>
          cases e <;> cases a
          case none.none | some.some => rfl
          all_goals cases h
      | _ => cases h
  | children es =>
      cases t with
      | children as =>
          cases es <;> cases as
          case none.none => rfl
          case some.some => exact Option.some.inj h
          all_goals cases h
      | _ => cases h
  | reference =>
      cases t with
      | reference => rfl
      | _ => cases h
  | ignored => cases h

theorem references_eq_ok_iff {place : String} {r q : Option NamedRef} :
    references expected actual place r q = .ok () ↔
      r.map (fun r => (r.name, r.target.map expected.label)) =
        q.map fun q => (q.name, q.target.map actual.label) := by
  cases r with
  | none => cases q <;> simp [references]
  | some r =>
      cases q with
      | none => simp [references]
      | some q =>
          simp only [references, Option.map_some, Option.some.injEq, Prod.mk.injEq]
          by_cases hname : r.name = q.name <;>
            by_cases htarget : r.target.map expected.label = q.target.map actual.label <;>
            simp [hname, htarget]

variable {node : String → NodeId → NodeId → Except Error Unit} {P : NodeId → NodeId → Prop}

theorem items_eq_ok_iff {es as : List NodeId} (hlength : es.length = as.length)
    (hnode : ∀ e ∈ es, ∀ a ∈ as, ∀ place, node place e a = .ok () ↔ P e a) (place : String)
    (i : Nat) :
    items node place i es as = .ok () ↔ List.Forall₂ P es as := by
  induction es generalizing as i with
  | nil =>
      obtain rfl := List.length_eq_zero_iff.mp hlength.symm
      exact ⟨fun _ => .nil, fun _ => rfl⟩
  | cons e es ih =>
      cases as with
      | nil => cases hlength
      | cons a as =>
          have hrest := ih (Nat.succ.inj hlength) (fun x hx y hy =>
            hnode x (List.mem_cons_of_mem _ hx) y (List.mem_cons_of_mem _ hy)) (i + 1)
          rw [items, bind_eq_ok, List.forall₂_cons, ← hrest,
            ← hnode e List.mem_cons_self a List.mem_cons_self]
          exact ⟨fun ⟨_, he, hes⟩ => ⟨he, hes⟩, fun ⟨he, hes⟩ => ⟨(), he, hes⟩⟩

/-- **Comparing slots compares their contents and then the nodes in them.** -/
theorem slots_eq_ok_iff {place : String} {s t : Slot} (hs : s ≠ .ignored)
    (hnode : ∀ e ∈ s.owned, ∀ a ∈ t.owned, ∀ place, node place e a = .ok () ↔ P e a) :
    c.slots expected actual node place s t = .ok () ↔
      c.SlotsAgree expected actual s t ∧ List.Forall₂ P s.owned t.owned := by
  cases s with
  | ignored => exact absurd rfl hs
  | value v =>
      cases t with
      | value w =>
          cases hlight : c.lightweight <;> simp [slots, sameValue, SlotsAgree, Slot.owned, hlight]
      | _ => simp [slots, SlotsAgree]
  | reference r =>
      cases t with
      | reference q =>
          simp only [slots, references_eq_ok_iff, SlotsAgree, Slot.owned, List.forall₂_nil_left_iff,
            and_true]
      | _ => simp [slots, SlotsAgree]
  | child e =>
      cases t with
      | child a =>
          cases e <;> cases a
          case some.some e a =>
            have hitem := hnode e (by simp [Slot.owned]) a (by simp [Slot.owned]) place
            simp [slots, SlotsAgree, Slot.owned, hitem]
          all_goals simp [slots, SlotsAgree, Slot.owned]
      | _ => simp [slots, SlotsAgree]
  | children es =>
      cases t with
      | children as =>
          cases es <;> cases as
          case some.some es as =>
            by_cases hlength : es.length = as.length
            · have hitems := items_eq_ok_iff hlength hnode place 0
              simp [slots, SlotsAgree, Slot.owned, hlength, hitems]
            · simp [slots, SlotsAgree, hlength]
          all_goals simp [slots, SlotsAgree, Slot.owned]
      | _ => simp [slots, SlotsAgree]

end Comparison

/-! ### The public properties of a node -/

theorem Metamodel.publicProperties_of_type {m : Metamodel} {type : String} {t : NodeType}
    (h : m.type type = .ok t) : m.publicProperties type = t.effective.filter Property.isPublic := by
  rw [publicProperties, type_eq_ok.mp h]
  rfl

theorem Metamodel.Built.nodup_publicProperties {m : Metamodel} (hm : m.Built) (type : String) :
    ((m.publicProperties type).map Property.name).Nodup := by
  cases h : m.type? type with
  | none => simp [publicProperties, h]
  | some t =>
      have ht := type_eq_ok.mpr h
      rw [publicProperties_of_type ht]
      exact (hm.nodup_names ht).sublist (List.filter_sublist.map _)

namespace Forest

variable {f : Forest} {v : NodeId}

/-- What the properties of a node hold, in the order of the table. -/
theorem Sound.zipWith_facet_eq (hf : f.Sound) (hm : f.metamodel.Built) {n : Node} {t : NodeType}
    (hn : f.get? v = some n) (ht : f.metamodel.type n.type = .ok t) :
    t.effective.zipWith Facet.mk n.slots = t.effective.map fun p => ⟨p, f.content v p⟩ := by
  obtain ⟨t', ht', -, hfits⟩ := hf.wellTyped hn
  obtain rfl : t = t' := Except.ok.inj (ht.symm.trans ht')
  refine List.ext_getElem? fun j => ?_
  rw [List.getElem?_zipWith, List.getElem?_map]
  cases hp : t.effective[j]? with
  | none => rfl
  | some p =>
      obtain ⟨s, hs, -⟩ := hfits.exists_slot hp
      rw [hs, Option.map_some, content, slot_of_get? hn ht (hm.nodup_names ht) hp hs]
      rfl

theorem Sound.publicFacets_eq (hf : f.Sound) (hm : f.metamodel.Built) (hv : (f.get? v).isSome) :
    f.publicFacets v = .ok ((f.metamodel.publicProperties (f.typeOf v)).map
      fun p => ⟨p, f.content v p⟩) := by
  obtain ⟨n, hn⟩ := Option.isSome_iff_exists.mp hv
  obtain ⟨t, ht, -, -⟩ := hf.wellTyped hn
  rw [publicFacets_of_get? hn ht, hf.zipWith_facet_eq hm hn ht, typeOf_of_get? hn,
    Metamodel.publicProperties_of_type ht, List.filter_map]
  rfl

theorem Sound.visible_eq (hf : f.Sound) (hm : f.metamodel.Built) (hv : (f.get? v).isSome) :
    f.visible v = (f.metamodel.publicProperties (f.typeOf v)).map
      fun p => ⟨p, f.content v p⟩ := by
  rw [visible, hf.publicFacets_eq hm hv]
  rfl

theorem Sound.children_eq (hf : f.Sound) (hm : f.metamodel.Built) (hv : (f.get? v).isSome) :
    f.children v = (f.metamodel.publicProperties (f.typeOf v)).flatMap
      fun p => (f.content v p).owned := by
  rw [children_eq_flatMap, hf.visible_eq hm hv, List.flatMap_map]

/-- Every public property of a node holds something. -/
theorem Sound.slot_eq (hf : f.Sound) (hm : f.metamodel.Built) (hv : (f.get? v).isSome)
    {p : Property} (hp : p ∈ f.metamodel.publicProperties (f.typeOf v)) :
    f.slot v p.name p.kind = .ok (f.content v p) := by
  obtain ⟨n, hn⟩ := Option.isSome_iff_exists.mp hv
  obtain ⟨t, ht, -, hfits⟩ := hf.wellTyped hn
  rw [typeOf_of_get? hn, Metamodel.publicProperties_of_type ht] at hp
  obtain ⟨j, hj⟩ := List.mem_iff_getElem?.mp (List.mem_filter.mp hp).1
  obtain ⟨s, hs, -⟩ := hfits.exists_slot hj
  rw [content, slot_of_get? hn ht (hm.nodup_names ht) hj hs]
  rfl

end Forest

namespace Comparison

namespace Facing

variable {c : Comparison} {expected actual : Forest} {e a : NodeId}

theorem built_right (h : Facing expected actual) : actual.metamodel.Built :=
  h.metamodel_eq ▸ h.built

/-! ### One level -/

/-- Agreement in terms of contents. -/
theorem alike_iff (h : Facing expected actual) (he : (expected.get? e).isSome)
    (ha : (actual.get? a).isSome) :
    c.Alike expected actual e a ↔
      expected.typeOf e = actual.typeOf a ∧
      (c.positions = true →
        (expected.get? e).bind Node.position = (actual.get? a).bind Node.position) ∧
      ∀ p ∈ expected.metamodel.publicProperties (expected.typeOf e),
        c.SlotsAgree expected actual (expected.content e p) (actual.content a p) := by
  have hslot : expected.typeOf e = actual.typeOf a →
      ∀ p ∈ expected.metamodel.publicProperties (expected.typeOf e),
        expected.slot e p.name p.kind = .ok (expected.content e p) ∧
          actual.slot a p.name p.kind = .ok (actual.content a p) := by
    intro htype p hp
    refine ⟨h.left.slot_eq h.built he hp, h.right.slot_eq h.built_right ha ?_⟩
    rwa [h.metamodel_eq, ← htype]
  constructor
  · rintro ⟨htype, hposition, hslots⟩
    refine ⟨htype, hposition, fun p hp => ?_⟩
    obtain ⟨s, t, hs, ht, hagree⟩ := hslots p hp
    obtain ⟨hs', ht'⟩ := hslot htype p hp
    rwa [Except.ok.inj (hs'.symm.trans hs), Except.ok.inj (ht'.symm.trans ht)]
  · rintro ⟨htype, hposition, hslots⟩
    exact ⟨htype, hposition, fun p hp =>
      ⟨_, _, (hslot htype p hp).1, (hslot htype p hp).2, hslots p hp⟩⟩

/-- Nodes that agree have equally many children. -/
theorem length_children (h : Facing expected actual) (he : (expected.get? e).isSome)
    (ha : (actual.get? a).isSome) (halike : c.Alike expected actual e a) :
    (expected.children e).length = (actual.children a).length := by
  obtain ⟨htype, -, hslots⟩ := (h.alike_iff he ha).mp halike
  rw [h.left.children_eq h.built he, h.right.children_eq h.built_right ha,
    h.metamodel_eq, ← htype, List.length_flatMap, List.length_flatMap]
  congr 1
  exact List.map_congr_left fun p hp => (hslots p hp).length_owned

/-- The counterpart of a property is the same property of the other node. -/
theorem facets_eq (h : Facing expected actual) (ha : (actual.get? a).isSome)
    {node : String → NodeId → NodeId → Except Error Unit} {place : String} {p : Property}
    (hp : p ∈ expected.metamodel.publicProperties (actual.typeOf a)) (s : Slot) :
    c.facets expected actual node place (actual.visible a) ⟨p, s⟩ =
      c.slots expected actual node s!"{place}.{p.name}" s (actual.content a p) := by
  have hfind := find?_of_nodup_key Property.name (h.built.nodup_publicProperties _) hp
  rw [facets, h.right.visible_eq h.built_right ha, h.metamodel_eq, List.find?_map]
  simp only [Function.comp_def, hfind, Option.map_some]

/-- Comparing the properties of two nodes of one type compares all their contents and
then, in order, their children. -/
theorem forM_facets_eq_ok_iff (h : Facing expected actual) (he : (expected.get? e).isSome)
    (ha : (actual.get? a).isSome) (htype : expected.typeOf e = actual.typeOf a)
    (hchecked : ∀ facet ∈ expected.visible e, facet.slot ≠ .ignored)
    {node : String → NodeId → NodeId → Except Error Unit} {P : NodeId → NodeId → Prop}
    (hnode : ∀ x ∈ expected.children e, ∀ y ∈ actual.children a, ∀ place,
      node place x y = .ok () ↔ P x y) {place : String} :
    (expected.visible e).forM (c.facets expected actual node place (actual.visible a)) = .ok () ↔
      (∀ p ∈ expected.metamodel.publicProperties (expected.typeOf e),
        c.SlotsAgree expected actual (expected.content e p) (actual.content a p)) ∧
      List.Forall₂ P (expected.children e) (actual.children a) := by
  have hleft := h.left.children_eq h.built he
  have hright := h.right.children_eq h.built_right ha
  rw [h.metamodel_eq, ← htype] at hright
  have hslots : ∀ p ∈ expected.metamodel.publicProperties (expected.typeOf e),
      c.facets expected actual node place (actual.visible a) ⟨p, expected.content e p⟩ = .ok () ↔
        c.SlotsAgree expected actual (expected.content e p) (actual.content a p) ∧
          List.Forall₂ P (expected.content e p).owned (actual.content a p).owned := by
    intro p hp
    rw [h.facets_eq ha (htype ▸ hp)]
    refine slots_eq_ok_iff ?_ fun x hx y hy => hnode x ?_ y ?_
    · rw [h.left.visible_eq h.built he, List.forall_mem_map] at hchecked
      exact hchecked p hp
    · rw [hleft]
      exact List.mem_flatMap.mpr ⟨p, hp, hx⟩
    · rw [hright]
      exact List.mem_flatMap.mpr ⟨p, hp, hy⟩
  rw [forM_eq_ok_iff, h.left.visible_eq h.built he, List.forall_mem_map, forall₂_congr hslots,
    forall₂_and]
  refine and_congr_right fun hagree => ?_
  rw [hleft, hright, forall₂_flatMap_iff fun p hp => (hagree p hp).length_owned]

/-- **One level of the comparison.**  It compares the two nodes and then, in order, their
children. -/
theorem nodes_succ_eq_ok_iff (h : Facing expected actual) (he : (expected.get? e).isSome)
    (ha : (actual.get? a).isSome) (hchecked : ∀ facet ∈ expected.visible e, facet.slot ≠ .ignored)
    {budget : Nat} {P : NodeId → NodeId → Prop}
    (hnode : ∀ x ∈ expected.children e, ∀ y ∈ actual.children a, ∀ place,
      c.nodes expected actual budget place x y = .ok () ↔ P x y) (place : String) :
    c.nodes expected actual (budget + 1) place e a = .ok () ↔
      c.Alike expected actual e a ∧
        List.Forall₂ P (expected.children e) (actual.children a) := by
  obtain ⟨n, hn⟩ := Option.isSome_iff_exists.mp he
  obtain ⟨k, hk⟩ := Option.isSome_iff_exists.mp ha
  have hleft : expected.publicFacets e = .ok (expected.visible e) := by
    rw [h.left.visible_eq h.built he, h.left.publicFacets_eq h.built he]
  have hright : actual.publicFacets a = .ok (actual.visible a) := by
    rw [h.right.visible_eq h.built_right ha, h.right.publicFacets_eq h.built_right ha]
  rw [h.alike_iff he ha]
  simp only [nodes, Forest.node_eq_ok.mpr hn, Forest.node_eq_ok.mpr hk, hleft, hright, bind,
    Except.bind]
  rw [hn, hk, Option.bind_some, Option.bind_some]
  by_cases htype : n.type = k.type
  · have htypeOf : expected.typeOf e = actual.typeOf a := by
      rw [Forest.typeOf_of_get? hn, Forest.typeOf_of_get? hk, htype]
    rw [if_neg (not_not_intro htype)]
    by_cases hposition : c.positions = true → n.position = k.position
    · rw [if_neg (by tauto), h.forM_facets_eq_ok_iff he ha htypeOf hchecked hnode]
      rw [and_iff_right htypeOf, and_iff_right hposition]
    · rw [if_pos (by tauto)]
      simp [hposition]
  · have htypeOf : expected.typeOf e ≠ actual.typeOf a := by
      rwa [Forest.typeOf_of_get? hn, Forest.typeOf_of_get? hk]
    rw [if_pos htype]
    simp [htypeOf]

/-! ### All levels -/

/-- **The trees of two walks.**  If two walks agree node by node, whatever follows them,
then they end at the same place. -/
theorem split (h : Facing expected actual) (he : (expected.get? e).isSome) :
    ∀ a rest rest', (actual.get? a).isSome →
      List.Forall₂ (c.Alike expected actual) (expected.preorder e ++ rest)
        (actual.preorder a ++ rest') →
      List.Forall₂ (c.Alike expected actual) (expected.preorder e) (actual.preorder a) ∧
        List.Forall₂ (c.Alike expected actual) rest rest' := by
  -- The induction is from the leaves of the expected tree up.
  refine h.left.up_induction (fun e he ih => ?_) e he
  intro a rest rest' ha hwalk
  rw [h.left.preorder_eq he, h.right.preorder_eq ha] at hwalk ⊢
  rw [List.cons_append, List.cons_append, List.forall₂_cons] at hwalk
  obtain ⟨halike, hbelow⟩ := hwalk
  obtain ⟨htrees, hrest⟩ := forall₂_of_flatMap_append (h.length_children he ha halike)
    (fun x hx y hy => ih x hx y _ _ (h.right.isSome_of_mem_children hy)) hbelow
  exact ⟨.cons halike (List.rel_flatMap htrees fun _ _ hxy => hxy), hrest⟩

/-- Below nodes that agree, the walks agree exactly if the trees of the children do. -/
theorem forall₂_below_iff (h : Facing expected actual) (he : (expected.get? e).isSome)
    (ha : (actual.get? a).isSome) (halike : c.Alike expected actual e a) :
    List.Forall₂ (c.Alike expected actual) (expected.below e) (actual.below a) ↔
      List.Forall₂ (fun x y =>
          List.Forall₂ (c.Alike expected actual) (expected.preorder x) (actual.preorder y))
        (expected.children e) (actual.children a) := by
  constructor
  · intro hbelow
    rw [← List.append_nil (expected.below e), ← List.append_nil (actual.below a)] at hbelow
    refine (forall₂_of_flatMap_append (h.length_children he ha halike) ?_ hbelow).1
    intro x hx y hy
    exact h.split (h.left.isSome_of_mem_children hx) y _ _ (h.right.isSome_of_mem_children hy)
  · intro htrees
    exact List.rel_flatMap htrees fun _ _ hxy => hxy

/-- **All levels of the comparison.**  With a budget for the height of the expected tree,
comparing two trees compares their walks. -/
theorem nodes_eq_ok_iff (h : Facing expected actual) {budget : Nat}
    (hbudget : expected.size < budget + expected.depth e) (he : (expected.get? e).isSome)
    (ha : (actual.get? a).isSome)
    (hchecked : ∀ v ∈ expected.preorder e, ∀ facet ∈ expected.visible v, facet.slot ≠ .ignored)
    (place : String) :
    c.nodes expected actual budget place e a = .ok () ↔
      List.Forall₂ (c.Alike expected actual) (expected.preorder e) (actual.preorder a) := by
  induction budget generalizing e a place with
  | zero =>
      have hdepth := h.left.wellFormed.depth_lt_size he
      omega
  | succ budget ih =>
      have hnode : ∀ x ∈ expected.children e, ∀ y ∈ actual.children a, ∀ place,
          c.nodes expected actual budget place x y = .ok () ↔
            List.Forall₂ (c.Alike expected actual) (expected.preorder x) (actual.preorder y) := by
        intro x hx y hy place
        have hdepth := h.left.wellFormed.depth_of_parent (h.left.parent?_of_mem_children hx)
        refine ih (by omega) (h.left.isSome_of_mem_children hx)
          (h.right.isSome_of_mem_children hy) (fun v hv => hchecked v ?_) place
        rw [h.left.preorder_eq he]
        exact List.mem_cons_of_mem _ (List.mem_flatMap.mpr ⟨x, hx, hv⟩)
      rw [h.nodes_succ_eq_ok_iff he ha (hchecked e (h.left.mem_preorder_self he)) hnode,
        h.left.preorder_eq he, h.right.preorder_eq ha, List.forall₂_cons]
      exact and_congr_right fun halike => (h.forall₂_below_iff he ha halike).symm

end Facing

/-- **Comparing trees is comparing walks.**  For any two trees that edits lead to over one
metamodel, and any strictness: if no public list of the expected tree is marked as
ignored, then the comparison passes exactly if the walks are equally long and agree
node by node. -/
theorem trees_eq_ok_iff {m : Metamodel} (hm : m.Built) {expected actual : Forest}
    (hexpected : Forest.Reachable m expected) (hactual : Forest.Reachable m actual)
    {e a : NodeId} (he : (expected.get? e).isSome) (ha : (actual.get? a).isSome)
    (hchecked : ∀ v ∈ expected.preorder e, ∀ facet ∈ expected.visible v, facet.slot ≠ .ignored)
    (c : Comparison) :
    c.trees expected e actual a = .ok () ↔
      (expected.preorder e).length = (actual.preorder a).length ∧
      ∀ (k : Nat) (v w : NodeId), (expected.preorder e)[k]? = some v →
        (actual.preorder a)[k]? = some w → c.Alike expected actual v w := by
  have hfacing : Facing expected actual :=
    { built := hexpected.metamodel_eq ▸ hm
      metamodel_eq := hactual.metamodel_eq.trans hexpected.metamodel_eq.symm
      left := hexpected.sound
      right := hactual.sound }
  rw [trees, hfacing.nodes_eq_ok_iff (by omega) he ha hchecked, List.forall₂_iff_get]
  refine and_congr_right fun hlength => ?_
  constructor
  · intro hwalk k v w hv hw
    obtain ⟨hk, rfl⟩ := List.getElem?_eq_some_iff.mp hv
    obtain ⟨hk', rfl⟩ := List.getElem?_eq_some_iff.mp hw
    exact hwalk k hk hk'
  · intro hwalk k hk hk'
    exact hwalk k _ _ (List.getElem?_eq_getElem hk) (List.getElem?_eq_getElem hk')

/-- An item with one part, which has a body that refers to it.  The root has a position. -/
def itemSketch : Forest :=
  Forest.run [.create "Item", .create "Item", .create "Item", .append ⟨0⟩ "parts" ⟨1⟩,
    .setChild ⟨1⟩ "body" (some ⟨2⟩), .setReference ⟨2⟩ "link" (some ⟨"up", some ⟨1⟩⟩),
    .setPosition ⟨0⟩ ⟨⟨1, 0⟩, ⟨1, 0⟩⟩] { metamodel := Document.itemModel }

/-- The same from the inside out, without a position and with something hidden. -/
def itemSketchReversed : Forest :=
  Forest.run [.create "Item", .create "Item", .create "Item", .create "Item",
    .setChild ⟨1⟩ "body" (some ⟨0⟩), .setReference ⟨0⟩ "link" (some ⟨"up", some ⟨1⟩⟩),
    .append ⟨2⟩ "parts" ⟨1⟩, .setChild ⟨0⟩ "shadow" (some ⟨3⟩)]
    { metamodel := Document.itemModel }

theorem itemSketch_reachable : Forest.Reachable Document.itemModel itemSketch := ⟨_, rfl⟩

theorem itemSketchReversed_reachable :
    Forest.Reachable Document.itemModel itemSketchReversed := ⟨_, rfl⟩

theorem trees_eq_ok_iff_items :
    (itemSketch.preorder ⟨0⟩ = [⟨0⟩, ⟨1⟩, ⟨2⟩] ∧
      itemSketchReversed.preorder ⟨2⟩ = [⟨2⟩, ⟨1⟩, ⟨0⟩]) ∧
    (∀ v ∈ itemSketch.preorder ⟨0⟩, ∀ facet ∈ itemSketch.visible v, facet.slot ≠ .ignored) ∧
    Alike { lightweight := true } itemSketch itemSketchReversed ⟨2⟩ ⟨0⟩ ∧
    ¬ ∀ (k : Nat) (v w : NodeId), (itemSketch.preorder ⟨0⟩)[k]? = some v →
      (itemSketchReversed.preorder ⟨2⟩)[k]? = some w →
        Alike { positions := true } itemSketch itemSketchReversed v w := by
  have hchecked : ∀ v ∈ itemSketch.preorder ⟨0⟩, ∀ facet ∈ itemSketch.visible v,
      facet.slot ≠ .ignored := by decide +kernel
  have h := trees_eq_ok_iff Document.itemModel_built itemSketch_reachable
    itemSketchReversed_reachable (a := ⟨2⟩) (by decide +kernel) (by decide +kernel) hchecked
  refine ⟨by decide +kernel, hchecked, ?_, fun hwalk => ?_⟩
  · exact ((h _).mp (by decide +kernel)).2 2 ⟨2⟩ ⟨0⟩ (by decide +kernel) (by decide +kernel)
  · have hpass := (h { positions := true }).mpr ⟨by decide +kernel, hwalk⟩
    revert hpass
    decide +kernel

end Comparison

end TypedForest
