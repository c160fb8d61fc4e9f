import TypedForest.Proofs.Forest.Frontier

/-!
# Traversals of sound forests

In a sound forest the nodes below any node form a tree, so the two traversals list
the same nodes, each once, and have their recursive readings.  Moreover the parents
of all nodes agree with the slots: the nodes of a tree are those that have its root
above them, and trees of siblings are apart.

## Main Definitions

* `Forest.Apart`: neither of two nodes is at or above the other.

## Main Results

* `Sound.up_induction`: induction from the leaves up.
* `Sound.treeBelow`: in a sound forest everything is a tree.
* `Sound.preorder_eq`, `Sound.postorder_eq`: the recursive readings.
* `Sound.nodup_preorder`, `Sound.perm_postorder`: each node is listed once.
-/

namespace TypedForest.Forest

open Relation

variable {f : Forest}

/-! ### Children -/

/-- A child has the node above it as its parent. -/
theorem Sound.parent?_of_mem_children (hf : f.Sound) {p c : NodeId} (h : c ∈ f.children p) :
    f.parent? c = some p := by
  obtain ⟨j, property, s, hholds, -⟩ := mem_children.mp h
  exact hholds.parent?_eq hf.wellFormed

theorem Sound.isSome_of_mem_children (hf : f.Sound) {p c : NodeId} (h : c ∈ f.children p) :
    (f.get? c).isSome :=
  isSome_of_parent? (hf.parent?_of_mem_children h)

theorem map_property_zipWith {properties : List Property} {slots : List Slot}
    (h : slots.length = properties.length) :
    (properties.zipWith Facet.mk slots).map Facet.property = properties := by
  induction properties generalizing slots with
  | nil => rfl
  | cons p properties ih =>
      cases slots with
      | nil => cases h
      | cons s slots =>
          simp only [List.length_cons, Nat.add_right_cancel_iff] at h
          simp [ih h]

theorem map_slot_zipWith {properties : List Property} {slots : List Slot}
    (h : slots.length = properties.length) :
    (properties.zipWith Facet.mk slots).map Facet.slot = slots := by
  induction properties generalizing slots with
  | nil => exact (List.length_eq_zero_iff.mp h).symm
  | cons p properties ih =>
      cases slots with
      | nil => rfl
      | cons s slots =>
          simp only [List.length_cons, Nat.add_right_cancel_iff] at h
          simp [ih h]

theorem Sound.nodup_children (hf : f.Sound) (p : NodeId) : (f.children p).Nodup := by
  cases hn : f.get? p with
  | none => rw [children_of_get?_eq_none hn]; exact List.nodup_nil
  | some n =>
      obtain ⟨t, ht, -, hfits⟩ := hf.wellTyped hn
      have hslots := map_slot_zipWith hfits.length_eq
      have howned : (t.effective.zipWith Facet.mk n.slots).flatMap
          (fun facet => facet.slot.owned) = n.owned := by
        rw [Node.owned]
        nth_rewrite 2 [← hslots]
        rw [List.flatMap_map]
      rw [children_of_get? hn ht]
      refine List.Nodup.sublist (List.Sublist.flatMap List.filter_sublist _) ?_
      rw [howned]
      exact hf.wellFormed.nodup hn

/-- Induction from the leaves up: the nodes below are deeper, and depth is
bounded by the size of the forest. -/
@[elab_as_elim]
theorem Sound.up_induction (hf : f.Sound) {motive : NodeId → Prop}
    (node : ∀ p, (f.get? p).isSome → (∀ c ∈ f.children p, motive c) → motive p) (p : NodeId)
    (hp : (f.get? p).isSome) : motive p := by
  induction hd : f.size - f.depth p using Nat.strongRecOn generalizing p with
  | ind d ih =>
      refine node p hp fun c hc => ?_
      have hsome := hf.isSome_of_mem_children hc
      have hlt := hf.wellFormed.depth_lt_size hsome
      have hdepth := hf.wellFormed.depth_of_parent (hf.parent?_of_mem_children hc)
      exact ih (f.size - f.depth c) (by omega) c hsome rfl

/-- Neither of two nodes is at or above the other. -/
def Apart (f : Forest) (c d : NodeId) : Prop :=
  ¬ ReflTransGen f.IsParent c d ∧ ¬ ReflTransGen f.IsParent d c

/-- Nothing is below two nodes that are apart. -/
theorem Apart.not_above {c d x : NodeId} (h : f.Apart c d) (hc : ReflTransGen f.IsParent x c)
    (hd : ReflTransGen f.IsParent x d) : False := by
  have hunique : Relator.RightUnique f.IsParent := by
    intro a b b' hb hb'
    exact Option.some.inj (Eq.trans (Eq.symm hb) hb')
  rcases hc.total_of_right_unique hunique hd with hcd | hdc
  · exact h.1 hcd
  · exact h.2 hdc

/-- A sibling is not above: the way up leads through the common parent. -/
theorem WellFormed.not_above_sibling (hf : f.WellFormed) {c d p : NodeId}
    (hc : f.parent? c = some p) (hd : f.parent? d = some p) (hne : c ≠ d) :
    ¬ ReflTransGen f.IsParent c d := by
  intro hup
  rcases hup.cases_head with rfl | ⟨q, hq, hup⟩
  · exact hne rfl
  · obtain rfl : p = q := Option.some.inj (hc.symm.trans hq)
    exact hf.acyclic d (.head' hd hup)

theorem Sound.apart_children (hf : f.Sound) (p : NodeId) : (f.children p).Pairwise f.Apart := by
  refine (hf.nodup_children p).imp_of_mem ?_
  intro c d hc hd hne
  have hcp := hf.parent?_of_mem_children hc
  have hdp := hf.parent?_of_mem_children hd
  exact ⟨hf.wellFormed.not_above_sibling hcp hdp hne,
    hf.wellFormed.not_above_sibling hdp hcp hne.symm⟩

/-! ### Trees -/

/-- **In a sound forest the nodes below any node form a tree.** -/
theorem Sound.treeBelow (hf : f.Sound) {root : NodeId} (hroot : (f.get? root).isSome) :
    f.TreeBelow root where
  isSome_root := hroot
  parent_eq _ hc := hf.parent?_of_mem_children hc
  nodup_children _ := hf.nodup_children _
  ne_root := by
    intro p c hp hc heq
    rw [heq] at hc
    have habove : ReflTransGen f.IsParent p root := by
      clear hc
      induction hp with
      | refl => exact .refl
      | tail _ hpc ih => exact .head (hf.parent?_of_mem_children (mem_children.mpr hpc)) ih
    exact hf.wellFormed.acyclic root (.head' (hf.parent?_of_mem_children hc) habove)

/-- Only a node that exists has a tree. -/
theorem isSome_root {root x : NodeId} (h : x ∈ f.preorder root) : (f.get? root).isSome := by
  cases hn : f.get? root with
  | none => simp [preorder, hn] at h
  | some n => rfl

namespace Sound

theorem preorder_eq (hf : f.Sound) {id : NodeId} (hid : (f.get? id).isSome) :
    f.preorder id = id :: f.below id :=
  (hf.treeBelow hid).preorder_eq

theorem postorder_eq (hf : f.Sound) {id : NodeId} (hid : (f.get? id).isSome) :
    f.postorder id = (f.children id).flatMap f.postorder ++ [id] :=
  (hf.treeBelow hid).postorder_eq

/-- Both traversals list the same nodes. -/
theorem perm_postorder (hf : f.Sound) (id : NodeId) : (f.preorder id).Perm (f.postorder id) := by
  cases hn : f.get? id with
  | none => simp [preorder, postorder, hn]
  | some n =>
      have htree := hf.treeBelow (Option.isSome_of_eq_some hn)
      exact htree.preorder.2.perm_entered htree.postorder.2

/-- No node is listed twice. -/
theorem nodup_preorder (hf : f.Sound) (id : NodeId) : (f.preorder id).Nodup := by
  cases hn : f.get? id with
  | none => simp [preorder, hn]
  | some n => exact (hf.treeBelow (Option.isSome_of_eq_some hn)).preorder.2.nodup_entered

variable {root x p c : NodeId}

theorem mem_preorder_self (hf : f.Sound) (h : (f.get? root).isSome) : root ∈ f.preorder root := by
  rw [hf.preorder_eq h]
  exact List.mem_cons_self

/-- The nodes of a tree: the root, and the nodes of the trees below it. -/
theorem mem_preorder (hf : f.Sound) (h : (f.get? root).isSome) :
    x ∈ f.preorder root ↔ x = root ∨ ∃ c ∈ f.children root, x ∈ f.preorder c := by
  rw [hf.preorder_eq h, List.mem_cons, below, List.mem_flatMap]

/-- The nodes of a tree are at or below its root. -/
theorem above_of_mem_preorder (hf : f.Sound) (h : x ∈ f.preorder root) :
    ReflTransGen f.IsParent x root := by
  refine hf.up_induction (fun p hp ih h => ?_) root (isSome_root h) h
  rcases (hf.mem_preorder hp).mp h with rfl | ⟨c, hc, hx⟩
  · exact .refl
  · exact (ih c hc hx).tail (hf.parent?_of_mem_children hc)

theorem exists_of_mem_preorder (hf : f.Sound) (h : x ∈ f.preorder root) :
    (f.get? x).isSome := by
  rcases (hf.above_of_mem_preorder h).cases_head with rfl | ⟨p, hp, -⟩
  · exact isSome_root h
  · exact isSome_of_parent? hp

/-- A tree contains the children of its nodes. -/
theorem mem_preorder_of_mem_children (hf : f.Sound) (hp : p ∈ f.preorder root)
    (hc : c ∈ f.children p) : c ∈ f.preorder root := by
  refine hf.up_induction (fun q hq ih hp => ?_) root (isSome_root hp) hp
  rw [hf.mem_preorder hq]
  rcases (hf.mem_preorder hq).mp hp with rfl | ⟨d, hd, hp⟩
  · exact .inr ⟨c, hc, hf.mem_preorder_self (hf.isSome_of_mem_children hc)⟩
  · exact .inr ⟨d, hd, ih d hd hp⟩

/-- Each node of a tree but its root is a child of another. -/
theorem exists_parent_of_mem_preorder (hf : f.Sound) (h : x ∈ f.preorder root) :
    x = root ∨ ∃ p ∈ f.preorder root, x ∈ f.children p := by
  refine hf.up_induction (fun q hq ih h => ?_) root (isSome_root h) h
  rcases (hf.mem_preorder hq).mp h with rfl | ⟨c, hc, hx⟩
  · exact .inl rfl
  · refine .inr ?_
    rcases ih c hc hx with rfl | ⟨p, hp, hx⟩
    · exact ⟨q, hf.mem_preorder_self hq, hc⟩
    · exact ⟨p, (hf.mem_preorder hq).mpr (.inr ⟨c, hc, hp⟩), hx⟩

/-- The nodes of a tree have the same topmost node. -/
theorem topmost_of_mem_preorder (hf : f.Sound) (h : x ∈ f.preorder root) :
    f.topmost x = f.topmost root := by
  have habove := hf.above_of_mem_preorder h
  clear h
  induction habove using ReflTransGen.head_induction_on with
  | refl => rfl
  | head hup _ ih => rw [hf.wellFormed.topmost_of_parent hup, ih]

end Sound

end TypedForest.Forest
