import TypedForest.Proofs.Forest.Attachment
import TypedForest.Proofs.Forest.Traversal
import TypedForest.Proofs.Path.Text

/-!
# Releasing nodes

When a slot gets content that owns nothing, the nodes that it owned are released: each of
them becomes the root of a tree of its own.  The nodes inside these trees keep their
parents, except for the new roots, but their paths now start further down.  Everywhere
else, parents, paths and labels stay.

## Main Definitions

* `Forest.Inside`: a node stands in the tree of one of several nodes.

## Main Results

* `Admits.path_of_not_inside`, `Admits.path_of_within`: paths after a release.
* `Admits.label_released_iff`: the labels that it keeps.
* `Admits.mem_preorder_released`: the nodes that it leaves in a tree.
-/

namespace TypedForest.Forest

variable {f : Forest} {owner root d x : NodeId} {site : Site} {slot : Slot}

theorem label_of_get? {n : Node} (hn : f.get? x = some n) :
    f.label x = n.type ++ "@" ++ (f.path x).text "root" := by
  rw [label, hn]
  rfl

/-- The node stands in the tree of one of the nodes. -/
def Inside (f : Forest) (nodes : List NodeId) (x : NodeId) : Prop :=
  ∃ d ∈ nodes, f.Within d x

theorem WellFormed.inside_iff (hf : f.WellFormed) {nodes : List NodeId} :
    f.Inside nodes x ↔ ∃ d ∈ nodes, d = x ∨ d ∈ f.ancestors x := by
  simp only [Inside, hf.within_iff, hf.reflTransGen_iff]

/-- A node is inside because it is one of the nodes or because its parent is inside. -/
theorem WellFormed.inside_of_parent (hf : f.WellFormed) {nodes : List NodeId}
    (hparent : f.parent? x = some root) (hx : f.Inside nodes x) :
    x ∈ nodes ∨ f.Inside nodes root := by
  obtain ⟨d, hd, hwithin⟩ := hx
  rcases hwithin.cases_tail with rfl | ⟨p, hdp, howns⟩
  · exact .inl hd
  · obtain rfl := hf.owner_unique howns (hf.parent_iff.mp hparent)
    exact .inr ⟨d, hd, hdp⟩

/-- What a node owns does not stand above it. -/
theorem Sound.not_inside_of_mem_preorder (hf : f.Sound) {index : Nat}
    (howner : owner ∈ f.preorder root) : ¬ f.Inside (f.ownedAt owner index) root := by
  rintro ⟨d, hd, hwithin⟩
  have hparent := hf.wellFormed.parent_iff.mpr (owns_of_mem_ownedAt hd)
  have hup := (hf.above_of_mem_preorder howner).trans (hf.wellFormed.within_iff.mp hwithin)
  exact hf.wellFormed.acyclic d (.head' hparent hup)

theorem Holds.mem_ownedAt {j : Nat} {p : Property} {s : Slot} (h : f.Holds owner j p s x) :
    x ∈ f.ownedAt owner j := by
  obtain ⟨n, t, hn, -, -, hs⟩ := h.site
  exact Forest.mem_ownedAt.mpr ⟨n, s, hn, hs, h.mem⟩

/-- A node that is not released stays where it is. -/
theorem Holds.released {j index : Nat} {p : Property} {s : Slot} (h : f.Holds root j p s x)
    (hold : x ∉ f.ownedAt owner index) : (f.refill owner index slot).Holds root j p s x := by
  refine h.refill ?_
  rintro rfl rfl
  exact hold h.mem_ownedAt

/-! ### Parents, paths and labels -/

section

variable (h : f.Admits owner site slot) (hf : f.Sound) (howned : slot.owned = [])
include h hf howned

/-- A node that is released has no parent, and the others keep theirs. -/
theorem Admits.parent?_released (x : NodeId) :
    (f.refill owner site.index slot).parent? x =
      if x ∈ f.ownedAt owner site.index then none else f.parent? x := by
  rw [parent?_refill h hf.wellFormed, howned, if_neg List.not_mem_nil]

/-- Outside what is released, paths stay.  The induction is from the roots down. -/
theorem Admits.path_of_not_inside (hx : ¬ f.Inside (f.ownedAt owner site.index) x) :
    (f.refill owner site.index slot).path x = f.path x := by
  have hg := hf.refill h
  induction x using hf.wellFormed.down_induction with
  | root x hfree =>
      have hfree' : (f.refill owner site.index slot).parent? x = none := by
        rw [h.parent?_released hf howned, hfree, ite_self]
      rw [hf.path_of_free hfree, hg.path_of_free hfree']
  | child x p hparent ih =>
      obtain ⟨j, property, s, hholds⟩ := hf.exists_holds hparent
      have hold : x ∉ f.ownedAt owner site.index := fun hold => hx ⟨x, hold, .refl⟩
      have hp : ¬ f.Inside (f.ownedAt owner site.index) p := by
        rintro ⟨d, hd, hwithin⟩
        exact hx ⟨d, hd, hwithin.tail hholds.owns⟩
      rw [hholds.path_eq hf.wellFormed, (hholds.released hold).path_eq hg.wellFormed, ih hp]

/-- Paths inside what is released start at the released node. -/
theorem Admits.path_of_within (hd : d ∈ f.ownedAt owner site.index) (hx : f.Within d x) :
    f.path x = f.path d ++ (f.refill owner site.index slot).path x := by
  have hg := hf.refill h
  induction hx with
  | refl =>
      have hfree : (f.refill owner site.index slot).parent? d = none := by
        rw [h.parent?_released hf howned, if_pos hd]
      rw [hg.path_of_free hfree, List.append_nil]
  | @tail p x hdp howns ih =>
      obtain ⟨j, property, s, hholds⟩ := hf.exists_holds (hf.wellFormed.parent_iff.mpr howns)
      -- If `x` were released, too, then `owner` would stand below `d`, which it owns.
      have hother : owner = p → site.index ≠ j := by
        rintro rfl rfl
        have howner := hf.wellFormed.parent_iff.mpr (owns_of_mem_ownedAt hd)
        exact hf.wellFormed.acyclic d (.head' howner (hf.wellFormed.within_iff.mp hdp))
      rw [hholds.path_eq hf.wellFormed, (hholds.refill hother).path_eq hg.wellFormed, ih,
        List.append_assoc]

/-- **A release keeps the labels of exactly the nodes that it leaves in place.** -/
theorem Admits.label_released_iff (hx : (f.get? x).isSome) :
    (f.refill owner site.index slot).label x = f.label x ↔
      ¬ f.Inside (f.ownedAt owner site.index) x := by
  obtain ⟨n, hn⟩ := Option.isSome_iff_exists.mp hx
  have hlabel : (f.refill owner site.index slot).label x = f.label x ↔
      ((f.refill owner site.index slot).path x).trail = (f.path x).trail := by
    rw [label_of_get? hn, label_of_get? (get?_refill_of_get? hn _ _ _), Path.text_eq,
      Path.text_eq, refillNode]
    simp only [String.append_right_inj]
  rw [hlabel]
  constructor
  · rintro htrail ⟨d, hd, hwithin⟩
    rw [h.path_of_within hf howned hd hwithin] at htrail
    have hpath := Path.trail_append_eq_iff.mp htrail.symm
    obtain ⟨j, property, s, hholds⟩ :=
      hf.exists_holds (hf.wellFormed.parent_iff.mpr (owns_of_mem_ownedAt hd))
    rw [hholds.path_eq hf.wellFormed] at hpath
    simp at hpath
  · intro hnot
    rw [h.path_of_not_inside hf howned hnot]

/-! ### Trees -/

/-- The children of a node after a release are those that were not released. -/
theorem Admits.mem_children_released :
    d ∈ (f.refill owner site.index slot).children x ↔
      d ∈ f.children x ∧ d ∉ f.ownedAt owner site.index := by
  have hg := hf.refill h
  constructor
  · intro hd
    have hparent := hg.parent?_of_mem_children hd
    obtain ⟨j, property, s, ⟨⟨n, t, hn, ht, hp, hs⟩, hmem⟩, hpublic⟩ := mem_children.mp hd
    rw [get?_refill, Option.map_eq_some_iff] at hn
    obtain ⟨n, hn, rfl⟩ := hn
    refine ⟨?_, fun hold => ?_⟩
    · rcases slots_refillNode hs with ⟨hs, -⟩ | ⟨-, -, rfl⟩
      · exact mem_children.mpr ⟨j, property, s, ⟨⟨n, t, hn, ht, hp, hs⟩, hmem⟩, hpublic⟩
      · rw [howned] at hmem
        cases hmem
    · rw [h.parent?_released hf howned, if_pos hold] at hparent
      cases hparent
  · rintro ⟨hd, hold⟩
    obtain ⟨j, property, s, hholds, hpublic⟩ := mem_children.mp hd
    exact mem_children.mpr ⟨j, property, s, hholds.released hold, hpublic⟩

/-- **A release leaves in a tree the nodes that are not inside what is released.** -/
theorem Admits.mem_preorder_released (hroot : (f.get? root).isSome)
    (houtside : ¬ f.Inside (f.ownedAt owner site.index) root) :
    x ∈ (f.refill owner site.index slot).preorder root ↔
      x ∈ f.preorder root ∧ ¬ f.Inside (f.ownedAt owner site.index) x := by
  -- The induction is from the leaves up.
  refine hf.up_induction (fun root hroot ih houtside => ?_) root hroot houtside
  have hroot' : ((f.refill owner site.index slot).get? root).isSome := by
    rwa [isSome_get?_refill]
  have hchild : ∀ c ∈ (f.refill owner site.index slot).children root, c ∈ f.children root ∧
      ¬ f.Inside (f.ownedAt owner site.index) c := by
    intro c hc
    obtain ⟨hc, hold⟩ := (h.mem_children_released hf howned).mp hc
    have hparent := hf.parent?_of_mem_children hc
    exact ⟨hc, fun hinside =>
      (hf.wellFormed.inside_of_parent hparent hinside).elim hold houtside⟩
  rw [(hf.refill h).mem_preorder hroot', hf.mem_preorder hroot]
  constructor
  · rintro (rfl | ⟨c, hc, hx⟩)
    · exact ⟨.inl rfl, houtside⟩
    · obtain ⟨hc, hcoutside⟩ := hchild c hc
      obtain ⟨hx, hxoutside⟩ := (ih c hc hcoutside).mp hx
      exact ⟨.inr ⟨c, hc, hx⟩, hxoutside⟩
  · rintro ⟨rfl | ⟨c, hc, hx⟩, hxoutside⟩
    · exact .inl rfl
    · have hold : c ∉ f.ownedAt owner site.index := fun hold =>
        hxoutside ⟨c, hold, hf.wellFormed.within_iff.mpr (hf.above_of_mem_preorder hx)⟩
      have hc' := (h.mem_children_released hf howned).mpr ⟨hc, hold⟩
      exact .inr ⟨c, hc', (ih c hc (hchild c hc').2).mpr ⟨hx, hxoutside⟩⟩

end

end TypedForest.Forest
