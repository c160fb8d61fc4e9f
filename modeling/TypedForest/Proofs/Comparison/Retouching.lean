import TypedForest.Proofs.Comparison.Recognition
import TypedForest.Proofs.Path.Text
import TypedForest.Proofs.View.Edited

/-!
# One changed property

A tree is compared with itself after one public attribute or reference got new content.
The comparison goes down from the roots and names the places that it comes to.  Paths are
made the other way, from a node up to its root.  Here the two are brought together: all
that is compared besides the new content passes, so the outcome is that of comparing the
old content with the new one, at the place that the path of the node reads like.

For an attribute this settles what is reported.  References are compared by the labels of
their targets, and a label is text: a new target goes unnoticed exactly if it has the label
of the old one.  With plain names on the paths of the targets that does not happen.

## Main Definitions

* `Comparison.Retouched`: forests that differ in what one public property holds.
* `Comparison.Steady`: the values in a tree are equal to themselves.

## Main Results

* `Retouched.slotsAgree_of_nodes`: what a comparison that passes says of each property.
* `Retouched.nodes_eq_outcome`: the outcome of the comparison.
* `Comparison.changed_attribute_reported`: a changed attribute is reported at its path.
* `Comparison.retargeting_missed_iff`: when a new target goes unnoticed.
-/

namespace TypedForest

namespace Forest

variable {f : Forest} {n x d e : NodeId} {p q : Property} {s : Slot}

/-! ### Which child leads to a node -/

/-- A node is below one child at most. -/
theorem Sound.not_mem_preorder_sibling (hf : f.Sound) (hd : d ∈ f.children x)
    (he : e ∈ f.children x) (hne : e ≠ d) (hn : n ∈ f.preorder d) : n ∉ f.preorder e := by
  intro hn'
  have hdx := hf.parent?_of_mem_children hd
  have hex := hf.parent?_of_mem_children he
  have hapart : f.Apart d e := ⟨hf.wellFormed.not_above_sibling hdx hex hne.symm,
    hf.wellFormed.not_above_sibling hex hdx hne⟩
  exact hapart.not_above (hf.above_of_mem_preorder hn) (hf.above_of_mem_preorder hn')

/-- No node is below itself. -/
theorem Sound.not_mem_preorder_child (hf : f.Sound) (hd : d ∈ f.children x) :
    x ∉ f.preorder d := by
  intro hx
  exact hf.wellFormed.acyclic d (.head' (hf.parent?_of_mem_children hd)
    (hf.above_of_mem_preorder hx))

/-- A node is held by one property at most. -/
theorem HasSlot.eq_of_mem_owned {j k : Nat} {t : Slot} (h : f.HasSlot x ⟨j, p⟩ s)
    (h' : f.HasSlot x ⟨k, q⟩ t) (hf : f.WellFormed) (hs : d ∈ s.owned) (ht : d ∈ t.owned) :
    p = q := by
  obtain ⟨k, t, hk, htype, hp, hs'⟩ := h
  obtain ⟨k', t', hk', htype', hq, ht'⟩ := h'
  obtain rfl : k = k' := Option.some.inj (hk.symm.trans hk')
  obtain rfl : t = t' := Except.ok.inj (htype.symm.trans htype')
  rw [hf.slot_unique hk hs' ht' hs ht] at hp
  exact Option.some.inj (hp.symm.trans hq)

/-- The children of a node are what its public properties own. -/
theorem Sound.mem_children_iff (hf : f.Sound) (hm : f.metamodel.Built)
    (hx : (f.get? x).isSome) :
    d ∈ f.children x ↔
      ∃ q ∈ f.metamodel.publicProperties (f.typeOf x), d ∈ (f.content x q).owned := by
  rw [hf.children_eq hm hx, List.mem_flatMap]

/-- Nodes of one tree with plain names on their paths have different labels. -/
theorem Sound.label_injective (hf : f.Sound) (hm : f.metamodel.Built) (hd : (f.get? d).isSome)
    (he : (f.get? e).isSome) (htop : f.topmost d = f.topmost e)
    (hplain : ∀ s ∈ f.path d ++ f.path e, s.Plain) (h : f.label d = f.label e) : d = e := by
  obtain ⟨k, hk⟩ := Option.isSome_iff_exists.mp hd
  obtain ⟨l, hl⟩ := Option.isSome_iff_exists.mp he
  rw [label_of_get? hk, label_of_get? hl] at h
  rw [List.forall_mem_append] at hplain
  exact hf.path_injective hm htop (Path.label_injective hplain.1 hplain.2 h)

end Forest

namespace Comparison

open Forest

variable {c : Comparison} {f g : Forest} {n x d : NodeId} {p q : Property} {s : Slot}

/-- The forests have the same nodes with the same labels, and in public properties other
than `p` of `n` they hold the same.  There they own the same. -/
structure Retouched (f g : Forest) (n : NodeId) (p : Property) : Prop
    extends f.SameOutlines g where
  label_eq : g.label = f.label
  content_eq : ∀ {x : NodeId} {q : Property}, (f.get? x).isSome →
    q ∈ f.metamodel.publicProperties (f.typeOf x) → ¬ (x = n ∧ q = p) →
      g.content x q = f.content x q
  owned_eq : (g.content n p).owned = (f.content n p).owned

/-- All public values in the tree are equal to themselves.  Those that are not are NaNs. -/
def Steady (c : Comparison) (f : Forest) (x : NodeId) : Prop :=
  ∀ z ∈ f.preorder x, ∀ q ∈ f.metamodel.publicProperties (f.typeOf z),
    ∀ v ∈ (f.content z q).value?, c.sameValue v v = true

theorem Steady.child (h : c.Steady f x) (hf : f.Sound) (hd : d ∈ f.children x) :
    c.Steady f d := by
  obtain ⟨k, -, hk, -⟩ := exists_type_of_mem_children hd
  intro z hz
  exact h z ((hf.mem_preorder (Option.isSome_of_eq_some hk)).mpr (.inr ⟨d, hd, hz⟩))

/-! ### Loops in which one item decides -/

section

variable {α β : Type}

theorem forM_map_congr {l : List α} {k : α → β} {act : β → Except Error Unit}
    {act' : α → Except Error Unit} (h : ∀ a ∈ l, act (k a) = act' a) :
    (l.map k).forM act = l.forM act' := by
  induction l with
  | nil => rfl
  | cons a l ih =>
      rw [List.forall_mem_cons] at h
      change (act (k a) >>= fun _ => (l.map k).forM act) = (act' a >>= fun _ => l.forM act')
      rw [h.1, ih h.2]

theorem bind_ok_unit (o : Except Error Unit) : (o >>= fun _ => .ok ()) = o := by
  cases o <;> rfl

/-- If all other items pass, then the outcome for one item is that of the loop. -/
theorem forM_eq_of_others {act : α → Except Error Unit} {l : List α} {a : α} (ha : a ∈ l)
    (hothers : ∀ b ∈ l, b ≠ a → act b = .ok ()) : l.forM act = act a := by
  induction l with
  | nil => cases ha
  | cons b l ih =>
      rw [List.forall_mem_cons] at hothers
      change (act b >>= fun _ => l.forM act) = act a
      by_cases hb : b = a
      · subst hb
        cases hact : act b with
        | error e => rfl
        | ok u =>
            refine forM_eq_ok_iff.mpr fun x hx => ?_
            by_cases hxb : x = b
            · rw [hxb, hact]
            · exact hothers.2 x hx hxb
      · rw [hothers.1 hb]
        exact ih ((List.mem_cons.mp ha).resolve_left (Ne.symm hb)) hothers.2

variable {node : String → NodeId → NodeId → Except Error Unit} {place : String}

theorem items_self_eq_ok {es : List NodeId} (h : ∀ e ∈ es, ∀ place, node place e e = .ok ())
    (k : Nat) : items node place k es es = .ok () := by
  induction es generalizing k with
  | nil => rfl
  | cons e es ih =>
      rw [List.forall_mem_cons] at h
      rw [items, h.1]
      exact ih h.2 (k + 1)

theorem items_self_eq_of_others {es : List NodeId} (hnodup : es.Nodup) {i : Nat}
    (hi : es.findIdx? (fun e => e == d) = some i)
    (hothers : ∀ e ∈ es, e ≠ d → ∀ place, node place e e = .ok ()) (k : Nat) :
    items node place k es es = node (place ++ "[" ++ toString (k + i) ++ "]") d d := by
  induction es generalizing k i with
  | nil => cases hi
  | cons e es ih =>
      rw [List.forall_mem_cons] at hothers
      obtain ⟨hnew, hnodup⟩ := List.nodup_cons.mp hnodup
      rw [items]
      rw [List.findIdx?_cons] at hi
      by_cases hd : e = d
      · subst hd
        have hrest : items node place (k + 1) es es = .ok () :=
          items_self_eq_ok (fun e' he' => hothers.2 e' he' (ne_of_mem_of_not_mem he' hnew)) _
        obtain rfl : 0 = i := by simpa using hi
        rw [hrest, bind_ok_unit, Nat.add_zero]
        rfl
      · rw [if_neg (by simpa using hd), Option.map_eq_some_iff] at hi
        obtain ⟨j, hj, rfl⟩ := hi
        rw [hothers.1 hd]
        refine (ih hnodup hj hothers.2 (k + 1)).trans ?_
        rw [show k + 1 + j = k + (j + 1) by omega]

/-! ### Comparing a slot with itself -/

/-- A slot passes for itself if its nodes do and if its value is equal to itself. -/
theorem slots_self_eq_ok (hlabel : g.label = f.label)
    (hvalue : ∀ v ∈ s.value?, c.sameValue v v = true)
    (hnode : ∀ e ∈ s.owned, ∀ place, node place e e = .ok ()) :
    c.slots f g node place s s = .ok () := by
  cases s with
  | value v => simp [slots, hvalue v rfl]
  | child e =>
      cases e with
      | none => rfl
      | some e => exact hnode e (List.mem_singleton_self e) place
  | children es =>
      cases es with
      | none => rfl
      | some es =>
          rw [slots, if_pos rfl]
          exact items_self_eq_ok hnode 0
  | ignored => rfl
  | reference r => exact references_eq_ok_iff.mpr (by rw [hlabel])

/-- If all other nodes of a slot pass for themselves, then the outcome for one node is that
for the slot.  The place is that of the node. -/
theorem slots_self_eq_of_others (hd : d ∈ s.owned) (hnodup : s.owned.Nodup)
    (hothers : ∀ e ∈ s.owned, e ≠ d → ∀ place, node place e e = .ok ()) (name : String) :
    c.slots f g node (place ++ "." ++ name) s s =
      node (place ++ "." ++ Path.Step.text ⟨name, s.indexOf? d⟩) d d := by
  cases s with
  | child e =>
      cases e with
      | none => cases hd
      | some e =>
          obtain rfl := List.mem_singleton.mp hd
          rfl
  | children es =>
      cases es with
      | none => cases hd
      | some es =>
          obtain ⟨i, hi⟩ := exists_findIdx?_of_mem hd
          have hindex : (Slot.children (some es)).indexOf? d = some i := hi
          have hplace : place ++ "." ++ name ++ "[" ++ toString i ++ "]" =
              place ++ "." ++ Path.Step.text ⟨name, some i⟩ := by
            show _ = place ++ "." ++ (name ++ "[" ++ toString i ++ "]")
            simp only [String.append_assoc]
          rw [hindex, ← hplace, slots, if_pos rfl]
          refine (items_self_eq_of_others hnodup hi hothers 0).trans ?_
          rw [Nat.zero_add]
  | value | ignored | reference => cases hd

end

/-! ### Nodes -/

/-- One level of comparing a node with itself in another forest. -/
theorem nodes_succ_eq (h : f.SameOutlines g) (hx : (f.get? x).isSome) (budget : Nat)
    (place : String) :
    c.nodes f g (budget + 1) place x x =
      (f.metamodel.publicProperties (f.typeOf x)).forM fun q =>
        c.slots f g (c.nodes f g budget) (place ++ "." ++ q.name) (f.content x q)
          (g.content x q) := by
  obtain ⟨k, hk⟩ := Option.isSome_iff_exists.mp hx
  obtain ⟨k', hk', htype, hposition⟩ := h.exists_node hk
  have hx' : (g.get? x).isSome := Option.isSome_of_eq_some hk'
  have htypeOf : g.typeOf x = f.typeOf x := by rw [typeOf_of_get? hk, typeOf_of_get? hk', htype]
  have hvisible := h.left.publicFacets_eq h.built hx
  have hvisible' := h.right.publicFacets_eq_visible hx'
  simp only [nodes, node_eq_ok.mpr hk, node_eq_ok.mpr hk', htype, hposition, hvisible, hvisible',
    bind, Except.bind, ne_eq, not_true_eq_false, and_false, if_false]
  refine forM_map_congr fun q hq => ?_
  rw [← htypeOf] at hq
  exact h.facets_eq hx' hq _

namespace Retouched

/-- **What a comparison that passes says of each property.** -/
theorem slotsAgree_of_nodes (h : Retouched f g n p) {budget : Nat} {place : String}
    (hok : c.nodes f g budget place x x = .ok ()) {z : NodeId} (hz : z ∈ f.preorder x)
    (hq : q ∈ f.metamodel.publicProperties (f.typeOf z)) :
    f.content z q = .ignored ∨ c.SlotsAgree f g (f.content z q) (g.content z q) := by
  induction budget generalizing x place with
  | zero => cases hok
  | succ budget ih =>
      have hx := isSome_root hz
      rw [nodes_succ_eq h.toSameOutlines hx, forM_eq_ok_iff] at hok
      have hnode : ∀ e a place, c.nodes f g budget place e a = .ok () ↔ c.Passes f g budget e a :=
        fun _ _ _ => nodes_eq_ok_iff_passes
      have hpass : ∀ q ∈ f.metamodel.publicProperties (f.typeOf x),
          c.SlotsPass f g (c.Passes f g budget) (f.content x q) (g.content x q) :=
        fun q hq => (slots_eq_ok_iff_pass hnode).mp (hok q hq)
      rcases (h.left.mem_preorder hx).mp hz with rfl | ⟨d, hd, hz⟩
      · exact (hpass q hq).imp_right And.left
      · obtain ⟨q', hq', hd⟩ := (h.left.mem_children_iff h.built hx).mp hd
        -- Both sides own the same nodes, so each of them passes for itself.
        have howned : (g.content x q').owned = (f.content x q').owned := by
          by_cases hsame : x = n ∧ q' = p
          · obtain ⟨rfl, rfl⟩ := hsame
            exact h.owned_eq
          · rw [h.content_eq hx hq' hsame]
        rcases hpass q' hq' with hignored | ⟨-, hnodes⟩
        · rw [hignored] at hd
          cases hd
        · rw [howned, List.forall₂_same] at hnodes
          exact ih ((hnode d d place).mpr (hnodes d hd)) hz

variable {budget : Nat}

/-- Where nothing is new, nothing is reported. -/
theorem nodes_eq_ok (h : Retouched f g n p) (hbudget : f.size < budget + f.depth x)
    (hx : (f.get? x).isSome) (hn : n ∉ f.preorder x) (hsteady : c.Steady f x) (place : String) :
    c.nodes f g budget place x x = .ok () := by
  induction budget generalizing x place with
  | zero =>
      have hdepth := h.left.wellFormed.depth_lt_size hx
      omega
  | succ budget ih =>
      rw [nodes_succ_eq h.toSameOutlines hx, forM_eq_ok_iff]
      intro q hq
      have hself := h.left.mem_preorder_self hx
      have hother : ¬ (x = n ∧ q = p) := by
        rintro ⟨rfl, -⟩
        exact hn hself
      rw [h.content_eq hx hq hother]
      refine slots_self_eq_ok h.label_eq (hsteady x hself q hq) fun d hd place => ?_
      have hchild := (h.left.mem_children_iff h.built hx).mpr ⟨q, hq, hd⟩
      have hdepth := h.left.wellFormed.depth_of_parent (h.left.parent?_of_mem_children hchild)
      exact ih (by omega) (h.left.isSome_of_mem_children hchild)
        (fun hmem => hn ((h.left.mem_preorder hx).mpr (.inr ⟨d, hchild, hmem⟩)))
        (hsteady.child h.left hchild) place

/-- **The outcome of the comparison** is that of comparing the old content with the new one,
at the place that the rest of the path leads to.  The induction follows the comparison
down to the node. -/
theorem nodes_eq_outcome (h : Retouched f g n p)
    (hp : p ∈ f.metamodel.publicProperties (f.typeOf n)) {outcome : String → Except Error Unit}
    (houtcome : ∀ node place,
      c.slots f g node place (f.content n p) (g.content n p) = outcome place)
    (hbudget : f.size < budget + f.depth x) (hn : n ∈ f.preorder x) (hsteady : c.Steady f x) :
    ∃ steps, f.path n = f.path x ++ steps ∧ ∀ place,
      c.nodes f g budget place x x = outcome (Path.text place steps ++ "." ++ p.name) := by
  have hf := h.left
  induction budget generalizing x with
  | zero =>
      have hdepth := hf.wellFormed.depth_lt_size (isSome_root hn)
      omega
  | succ budget ih =>
      have hx := isSome_root hn
      have hself := hf.mem_preorder_self hx
      have hdepth : ∀ e ∈ f.children x, f.size < budget + f.depth e := by
        intro e he
        have := hf.wellFormed.depth_of_parent (hf.parent?_of_mem_children he)
        omega
      -- What does not lead to the node passes.
      have haside : ∀ e ∈ f.children x, n ∉ f.preorder e → ∀ place,
          c.nodes f g budget place e e = .ok () := fun e he hne place =>
        h.nodes_eq_ok (hdepth e he) (hf.isSome_of_mem_children he) hne (hsteady.child hf he) place
      have hchild : ∀ q ∈ f.metamodel.publicProperties (f.typeOf x),
          ∀ e ∈ (f.content x q).owned, e ∈ f.children x := fun q hq e he =>
        (hf.mem_children_iff h.built hx).mpr ⟨q, hq, he⟩
      rcases (hf.mem_preorder hx).mp hn with rfl | ⟨d, hd, hnd⟩
      · refine ⟨[], (List.append_nil _).symm, fun place => ?_⟩
        rw [nodes_succ_eq h.toSameOutlines hx, forM_eq_of_others hp, houtcome]
        · simp [Path.text]
        · intro q hq hqp
          rw [h.content_eq hx hq fun hsame => hqp hsame.2]
          exact slots_self_eq_ok h.label_eq (hsteady n hself q hq) fun e he =>
            haside e (hchild q hq e he) (hf.not_mem_preorder_child (hchild q hq e he))
      · have hxn : x ≠ n := by
          rintro rfl
          exact hf.not_mem_preorder_child hd hnd
        obtain ⟨q, hq, hdq⟩ := (hf.mem_children_iff h.built hx).mp hd
        obtain ⟨j, hslot⟩ := hf.exists_hasSlot h.built hx hq
        have hholds : f.Holds x j q (f.content x q) d := ⟨hslot, hdq⟩
        obtain ⟨steps, hpath, hnodes⟩ := ih (hdepth d hd) hnd (hsteady.child hf hd)
        refine ⟨⟨q.name, (f.content x q).indexOf? d⟩ :: steps, ?_, fun place => ?_⟩
        · rw [hpath, hholds.path_eq hf.wellFormed, List.append_assoc]
          rfl
        · have hothers : ∀ e ∈ f.children x, e ≠ d → ∀ place,
              c.nodes f g budget place e e = .ok () := fun e he hne =>
            haside e he (hf.not_mem_preorder_sibling hd he hne hnd)
          rw [nodes_succ_eq h.toSameOutlines hx, forM_eq_of_others hq,
            h.content_eq hx hq fun hsame => hxn hsame.1,
            slots_self_eq_of_others hdq (hslot.nodup_owned hf.wellFormed) fun e he =>
              hothers e (hchild q hq e he), hnodes, Path.text_cons]
          intro q' hq' hqq
          rw [h.content_eq hx hq' fun hsame => hxn hsame.1]
          refine slots_self_eq_ok h.label_eq (hsteady x hself q' hq') fun e he =>
            hothers e (hchild q' hq' e he) ?_
          rintro rfl
          obtain ⟨k, hslot'⟩ := hf.exists_hasSlot h.built hx hq'
          exact hqq (hslot'.eq_of_mem_owned hslot hf.wellFormed he hdq)

variable {root : NodeId}

/-- If no value is new, then in a comparison that passes all are equal to themselves. -/
theorem steady_of_trees (h : Retouched f g n p)
    (hsame : (f.content n p).value? = none ∨ g.content n p = f.content n p)
    (hok : c.trees f root g root = .ok ()) : c.Steady f root := by
  intro z hz q hq v hv
  have hcontent : g.content z q = f.content z q := by
    by_cases hat : z = n ∧ q = p
    · obtain ⟨rfl, rfl⟩ := hat
      exact hsame.resolve_left (by simp [Option.mem_def.mp hv])
    · exact h.content_eq (h.left.exists_of_mem_preorder hz) hq hat
  have hagree := h.slotsAgree_of_nodes hok hz hq
  rw [hcontent] at hagree
  cases hslot : f.content z q with
  | value w =>
      rw [hslot] at hagree hv
      obtain rfl := Option.some.inj hv
      exact slotsAgree_value_iff.mp (hagree.resolve_left nofun)
  | _ =>
      rw [hslot] at hv
      cases hv

/-- From a free root, the place is the path of the node with another start. -/
theorem trees_eq_outcome (h : Retouched f g n p)
    (hp : p ∈ f.metamodel.publicProperties (f.typeOf n)) {outcome : String → Except Error Unit}
    (houtcome : ∀ node place,
      c.slots f g node place (f.content n p) (g.content n p) = outcome place)
    (hfree : f.parent? root = none) (hn : n ∈ f.preorder root) (hsteady : c.Steady f root) :
    c.trees f root g root = outcome (rootPlace ++ (f.path n).trail ++ "." ++ p.name) := by
  have hbudget : f.size < f.size + 1 + f.depth root := by omega
  obtain ⟨steps, hpath, hnodes⟩ := h.nodes_eq_outcome hp houtcome hbudget hn hsteady
  rw [h.left.path_of_free hfree, List.nil_append] at hpath
  rw [trees, hnodes, hpath, Path.text_eq]

end Retouched

/-- A tree is compared with itself. -/
theorem retouched_self (hf : f.Sound) (hm : f.metamodel.Built) (n : NodeId) (p : Property) :
    Retouched f f n p where
  toSameOutlines := .refl hf hm
  label_eq := rfl
  content_eq := fun _ _ _ => rfl
  owned_eq := rfl

/-- New content for a public attribute or reference. -/
theorem retouched_refill {site : Site} {slot : Slot} (h : f.Admits n site slot) (hf : f.Sound)
    (hm : f.metamodel.Built) (hs : f.HasSlot n site s)
    (hkind : site.property.kind = .value ∨ site.property.kind = .reference) :
    Retouched f (f.refill n site.index slot) n site.property where
  toSameOutlines := h.sameOutlines hf hm
  label_eq := h.label_eq hf hkind
  content_eq := fun hx hq hother => (h.content_refill hf hm hx hq).trans (if_neg hother)
  owned_eq := by
    have hold : s.owned = [] := by
      rw [← hs.kind_eq hf] at hkind
      exact hkind.elim Slot.owned_of_kind_value Slot.owned_of_kind_reference
    rw [(h.hasSlot hf).content_eq hm, hs.content_eq hm, h.owned_eq_nil hkind, hold]

/-! ### A changed attribute -/

/-- **A changed attribute is reported at its path.**  Let a tree that edits lead to pass for
itself from a free root, under any strictness, and let a public attribute of one of its
nodes get a value that differs from the old one under this strictness.  Comparing the tree
with the new one reports a difference.  The place is the path of the node, with another
start, and the attribute, and the texts are the detailed forms of the two values. -/
theorem changed_attribute_reported {m : Metamodel} (hm : m.Built) {f g : Forest}
    (hf : Reachable m f) {root : NodeId} (hfree : f.parent? root = none) {c : Comparison}
    (hself : c.trees f root f root = .ok ()) {n : NodeId} (hn : n ∈ f.preorder root)
    {p : Property} {old v : Value} (hfacet : ⟨p, .value old⟩ ∈ f.visible n)
    (hedit : Edit.setValue n p.name v f = .ok () g) (hdiffer : c.sameValue old v = false) :
    ∃ rest difference, f.pathText n = "root" ++ rest ∧
      c.trees f root g root =
        .error (.different ("<root>" ++ rest ++ "." ++ p.name) difference) ∧
      difference.aspect = "" ∧ difference.expected = old.inspect ∧
      difference.actual = v.inspect := by
  have hsound := hf.sound
  have hbuilt : f.metamodel.Built := hf.metamodel_eq ▸ hm
  obtain ⟨site, rfl, hslot, hadmits, rfl⟩ := hsound.exists_of_setValue hbuilt hfacet hedit
  obtain ⟨-, hp, hold⟩ := (hsound.mem_visible_iff hbuilt).mp hfacet
  have hnew := (hadmits.hasSlot hsound).content_eq hbuilt
  have hretouched := retouched_refill hadmits hsound hbuilt hslot (.inl hadmits.kind_eq.symm)
  have hsteady := (retouched_self hsound hbuilt n site.property).steady_of_trees (.inr rfl) hself
  have houtcome : ∀ node place, c.slots f (f.refill n site.index (.value v)) node place
      (f.content n site.property) ((f.refill n site.index (.value v)).content n site.property) =
        .error (.different place (.value old v)) := by
    intro node place
    rw [hold, hnew, slots, if_neg (by simp [hdiffer])]
  have htrees := hretouched.trees_eq_outcome hp houtcome hfree hn hsteady
  exact ⟨_, _, Path.text_eq "root" (f.path n), htrees, rfl, rfl, rfl⟩

/-- Branches have a note, parts and a link.  The name of one of their containments reads like
a way through two others. -/
def branch : TypeDeclaration where
  name := "Branch"
  properties := [{ name := "note", kind := .value }, { name := "a", kind := .single },
    { name := "b", kind := .single }, { name := "a.b", kind := .single },
    { name := "parts", kind := .multiple }, { name := "link", kind := .reference }]

def branchModel : Metamodel := Metamodel.grow [.type branch] { name := "branches" }

theorem branchModel_built : branchModel.Built := (Metamodel.Built.empty "branches").grow _

/-- A part two branches down links to the branch that it is part of. -/
def branchForest : Forest :=
  Forest.run [.create "Branch", .create "Branch", .create "Branch", .create "Branch",
    .create "Branch", .setChild ⟨0⟩ "a" (some ⟨1⟩), .setChild ⟨1⟩ "b" (some ⟨2⟩),
    .setChild ⟨0⟩ "a.b" (some ⟨3⟩), .append ⟨2⟩ "parts" ⟨4⟩,
    .setReference ⟨4⟩ "link" (some ⟨"up", some ⟨2⟩⟩), .setValue ⟨4⟩ "note" (.int 7)]
    { metamodel := branchModel }

theorem branchForest_reachable : Reachable branchModel branchForest := ⟨_, rfl⟩

theorem branchForest_free : branchForest.parent? ⟨0⟩ = none := by decide +kernel

/-- The note of the part was a number and becomes the text of this number. -/
theorem changed_attribute_reported_branches :
    ∃ g difference, Edit.setValue ⟨4⟩ "note" (.raw "7") branchForest = .ok () g ∧
      trees {} branchForest ⟨0⟩ g ⟨0⟩ =
        .error (.different "<root>.a.b.parts[0].note" difference) ∧
      difference.expected = "Int(7)" ∧ difference.actual = "Opaque(\"7\")" := by
  obtain ⟨p, hfacet, hname, -⟩ := exists_facet_of_find? branchForest ⟨4⟩ "note" (.value (.int 7))
    .value (by decide +kernel)
  have hself : trees {} branchForest ⟨0⟩ branchForest ⟨0⟩ = .ok () := by decide +kernel
  obtain ⟨g, hedit, -⟩ := branchForest_reachable.sound.exists_edit_of_effect (k := fun _ => ())
    (c := .setValue ⟨4⟩ "note" (.raw "7")) (b := ()) (by decide +kernel)
  change Edit.setValue ⟨4⟩ "note" (.raw "7") branchForest = .ok () g at hedit
  rw [← hname] at hedit
  obtain ⟨rest, difference, hpath, htrees, -, hexpected, hactual⟩ :=
    changed_attribute_reported branchModel_built branchForest_reachable branchForest_free hself
      (by decide +kernel) hfacet hedit (by decide +kernel)
  have hroot : branchForest.pathText ⟨4⟩ = "root" ++ ".a.b.parts[0]" := by decide +kernel
  obtain rfl := (String.append_right_inj _).mp (hpath.symm.trans hroot)
  rw [hname] at hedit htrees
  exact ⟨g, difference, hedit, htrees, hexpected.trans (by decide +kernel),
    hactual.trans (by decide +kernel)⟩

/-! ### A retargeted reference -/

/-- Comparing references that differ in the target at most compares labels. -/
theorem references_retarget_eq_ok_iff (hlabel : g.label = f.label) {place : String} {r : NamedRef}
    {t t' : NodeId} (ht : r.target = some t) :
    references f g place (some r) (some { r with target := some t' }) = .ok () ↔
      f.label t = f.label t' := by
  rw [references_eq_ok_iff, hlabel]
  simp [ht]

/-- A new target does not show exactly if it has the label of the old one. -/
theorem Retouched.retarget_iff (h : Retouched f g n p)
    (hp : p ∈ f.metamodel.publicProperties (f.typeOf n)) {r : NamedRef} {t t' : NodeId}
    (hold : f.content n p = .reference (some r))
    (hnew : g.content n p = .reference (some { r with target := some t' }))
    (ht : r.target = some t) {root : NodeId} (hfree : f.parent? root = none)
    (hn : n ∈ f.preorder root) :
    c.trees f root g root = .ok () ↔
      c.trees f root f root = .ok () ∧ f.label t = f.label t' := by
  have hself := retouched_self h.left h.built n p
  have htrees : c.Steady f root → c.trees f root g root = references f g _ (some r) _ :=
    h.trees_eq_outcome hp (fun node place => by rw [hold, hnew, slots]) hfree hn
  constructor
  · intro hok
    have hsteady := h.steady_of_trees (.inl (by rw [hold]; rfl)) hok
    rw [htrees hsteady, references_retarget_eq_ok_iff h.label_eq ht] at hok
    refine ⟨?_, hok⟩
    rw [hself.trees_eq_outcome hp (fun node place => by rw [hold, slots]) hfree hn hsteady]
    exact references_eq_ok_iff.mpr rfl
  · rintro ⟨hok, hlabel⟩
    rw [htrees (hself.steady_of_trees (.inr rfl) hok)]
    exact (references_retarget_eq_ok_iff h.label_eq ht).mpr hlabel

/-- **When a new target goes unnoticed.**  In a tree that edits lead to, with a free root,
let a public reference be resolved to one node of the tree and then to another.
Resolving it succeeds.  Comparing the tree with the new one passes, under any strictness,
if and only if the tree passes for itself and both targets have the same label.  It does not
pass if the names on the paths of the targets are plain. -/
theorem retargeting_missed_iff {m : Metamodel} (hm : m.Built) {f : Forest} (hf : Reachable m f)
    (c : Comparison) {root : NodeId} (hfree : f.parent? root = none) {n : NodeId}
    (hn : n ∈ f.preorder root) {p : Property} {r : NamedRef}
    (hfacet : ⟨p, .reference (some r)⟩ ∈ f.visible n) {t t' : NodeId} (ht : r.target = some t)
    (hmem : t ∈ f.preorder root) (hmem' : t' ∈ f.preorder root) (hne : t ≠ t') :
    ∃ g, Edit.resolve n p.name t' f = .ok () g ∧
      (c.trees f root g root = .ok () ↔
        c.trees f root f root = .ok () ∧ f.label t = f.label t') ∧
      ((∀ s ∈ f.path t ++ f.path t', s.Plain) → c.trees f root g root ≠ .ok ()) := by
  have hsound := hf.sound
  have hbuilt : f.metamodel.Built := hf.metamodel_eq ▸ hm
  have hexists := hsound.exists_of_mem_preorder hmem
  have hexists' := hsound.exists_of_mem_preorder hmem'
  obtain ⟨site, rfl, hslot, hadmits, hedit⟩ := hsound.exists_resolve hbuilt hfacet hexists'
  obtain ⟨-, hp, hold⟩ := (hsound.mem_visible_iff hbuilt).mp hfacet
  have hretouched := retouched_refill hadmits hsound hbuilt hslot (.inr hadmits.kind_eq.symm)
  have hiff := hretouched.retarget_iff (c := c) hp hold
    ((hadmits.hasSlot hsound).content_eq hbuilt) ht hfree hn
  refine ⟨_, hedit, hiff, fun hplain hok => hne ?_⟩
  refine hsound.label_injective hbuilt hexists hexists' ?_ hplain (hiff.mp hok).2
  rw [hsound.topmost_of_mem_preorder hmem, hsound.topmost_of_mem_preorder hmem']

theorem branchForest_link :
    ∃ p, ⟨p, .reference (some ⟨"up", some ⟨2⟩⟩)⟩ ∈ branchForest.visible ⟨4⟩ ∧
      p.name = "link" ∧ p.kind = .reference :=
  exists_facet_of_find? branchForest ⟨4⟩ "link" (.reference (some ⟨"up", some ⟨2⟩⟩)) .reference
    (by decide +kernel)

/-- Of two other targets for the link of the part, one is noticed, and the other reads like
the old target. -/
theorem retargeting_missed_iff_branches :
    (∃ g, Edit.resolve ⟨4⟩ "link" ⟨1⟩ branchForest = .ok () g ∧
      trees {} branchForest ⟨0⟩ g ⟨0⟩ ≠ .ok ()) ∧
    ∃ g, Edit.resolve ⟨4⟩ "link" ⟨3⟩ branchForest = .ok () g ∧
      trees {} branchForest ⟨0⟩ g ⟨0⟩ = .ok () := by
  obtain ⟨p, hfacet, hname, -⟩ := branchForest_link
  have hmem : ∀ i ∈ [1, 2, 3, 4].map NodeId.mk, i ∈ branchForest.preorder ⟨0⟩ := by decide +kernel
  obtain ⟨g, hedit, -, hnoticed⟩ := retargeting_missed_iff branchModel_built
    branchForest_reachable {} branchForest_free (hmem ⟨4⟩ (by decide)) hfacet rfl
    (hmem ⟨2⟩ (by decide)) (hmem ⟨1⟩ (by decide)) (by decide)
  obtain ⟨g', hedit', hmissed, -⟩ := retargeting_missed_iff branchModel_built
    branchForest_reachable {} branchForest_free (hmem ⟨4⟩ (by decide)) hfacet rfl
    (hmem ⟨2⟩ (by decide)) (hmem ⟨3⟩ (by decide)) (by decide)
  rw [hname] at hedit hedit'
  exact ⟨⟨g, hedit, hnoticed (by decide +kernel)⟩, g', hedit',
    hmissed.mpr ⟨by decide +kernel, by decide +kernel⟩⟩

/-- The link of the part leads to another node of the tree now, and the comparison passes. -/
theorem retargeting_missed_dotted :
    (branchModel.Built ∧ Reachable branchModel branchForest ∧
      branchForest.parent? ⟨0⟩ = none) ∧
    (∀ x ∈ [2, 3, 4].map NodeId.mk, x ∈ branchForest.preorder ⟨0⟩) ∧
    (∃ p, ⟨p, .reference (some ⟨"up", some ⟨2⟩⟩)⟩ ∈ branchForest.visible ⟨4⟩ ∧
      p.name = "link" ∧ p.kind = .reference) ∧
    ∃ g, Edit.resolve ⟨4⟩ "link" ⟨3⟩ branchForest = .ok () g ∧
      trees {} branchForest ⟨0⟩ g ⟨0⟩ = .ok () := by
  obtain ⟨g, hedit, htrees⟩ := branchForest_reachable.sound.exists_edit_of_effect
    (k := fun g => trees {} branchForest ⟨0⟩ g ⟨0⟩) (c := .resolve ⟨4⟩ "link" ⟨3⟩) (b := .ok ())
    (by decide +kernel)
  exact ⟨⟨branchModel_built, branchForest_reachable, branchForest_free⟩, by decide +kernel,
    branchForest_link, g, hedit, htrees⟩

end Comparison

end TypedForest
