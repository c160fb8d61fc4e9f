import TypedForest.Proofs.Forest.Containment
import TypedForest.Proofs.Metamodel.Tables

/-!
# Traversals as recursions

Two orders of the nodes of a tree are defined by recursion: the node and then the
trees below it, and the trees below it and then the node.  In a forest without
circles each of these rules fixes the order.  The traversals work with stacks, of
nodes in one case and of cursors that have been moved some way in the other, and they
list the nodes of a tree in these orders.

## Main Definitions

* `Forest.ListsDown`, `Forest.ListsUp`: the two rules.

## Main Results

* `Sound.listsDown_iff`, `Sound.listsUp_iff`: the traversals, and they alone, obey
  the rules.
* `Sound.pairwise_postorder`: from the leaves up, nothing comes before what is below it.
* `Forest.traversals_recursive`: what the traversals list in every forest that edits
  lead to.
-/

namespace TypedForest.Forest

open Relation

variable {f : Forest} {root x y : NodeId}

/-! ### The two rules -/

/-- Each node comes first, followed by the trees below it. -/
def ListsDown (f : Forest) (order : NodeId → List NodeId) : Prop :=
  ∀ id, (f.get? id).isSome → order id = id :: (f.children id).flatMap order

/-- The trees below a node come first, followed by the node. -/
def ListsUp (f : Forest) (order : NodeId → List NodeId) : Prop :=
  ∀ id, (f.get? id).isSome → order id = (f.children id).flatMap order ++ [id]

namespace Sound

/-- In a sound forest, agreement on the nodes that exist is agreement on children. -/
theorem flatMap_children_congr (hf : f.Sound) {order order' : NodeId → List NodeId}
    (h : ∀ id, (f.get? id).isSome → order id = order' id) (p : NodeId) :
    (f.children p).flatMap order = (f.children p).flatMap order' :=
  List.flatMap_congr fun c hc => h c (hf.isSome_of_mem_children hc)

/-- **The traversal from the root down, and it alone, lists each node before the
trees below it.** -/
theorem listsDown_iff (hf : f.Sound) (order : NodeId → List NodeId) :
    f.ListsDown order ↔ ∀ id, (f.get? id).isSome → order id = f.preorder id := by
  constructor
  · intro h id hid
    refine hf.up_induction (fun p hp ih => ?_) id hid
    rw [h p hp, hf.preorder_eq hp, below, List.flatMap_congr ih]
  · intro h id hid
    rw [h id hid, hf.preorder_eq hid, below, hf.flatMap_children_congr h]

/-- **The traversal from the leaves up, and it alone, lists each node after the
trees below it.** -/
theorem listsUp_iff (hf : f.Sound) (order : NodeId → List NodeId) :
    f.ListsUp order ↔ ∀ id, (f.get? id).isSome → order id = f.postorder id := by
  constructor
  · intro h id hid
    refine hf.up_induction (fun p hp ih => ?_) id hid
    rw [h p hp, hf.postorder_eq hp, List.flatMap_congr ih]
  · intro h id hid
    rw [h id hid, hf.postorder_eq hid, hf.flatMap_children_congr h]

/-! ### What comes before what -/

/-- What is below a node has it above. -/
theorem above_of_contains (hf : f.Sound) (h : TransGen f.Contains x y) :
    TransGen f.IsParent y x := by
  refine TransGen.mono (fun c p hpc => ?_) y x (transGen_swap.mpr h)
  exact hf.parent?_of_mem_children (mem_children.mpr hpc)

theorem mem_postorder (hf : f.Sound) : x ∈ f.postorder root ↔ x ∈ f.preorder root :=
  (hf.perm_postorder root).mem_iff.symm

/-- From the leaves up, nothing comes before what is below it. -/
theorem pairwise_postorder (hf : f.Sound) (hroot : (f.get? root).isSome) :
    (f.postorder root).Pairwise fun x y => ¬ TransGen f.IsParent y x := by
  refine hf.up_induction (fun p hp ih => ?_) root hroot
  have hbelow : ∀ {c z : NodeId}, z ∈ f.postorder c → ReflTransGen f.IsParent z c :=
    fun hz => hf.above_of_mem_preorder (hf.mem_postorder.mp hz)
  rw [hf.postorder_eq hp, List.pairwise_append]
  refine ⟨List.pairwise_flatMap.mpr ⟨ih, ?_⟩, List.pairwise_singleton _ _, ?_⟩
  · -- Nothing is below a node of one tree and in the tree of a sibling.
    refine (hf.apart_children p).imp fun hapart x hx y hy hyx => ?_
    exact hapart.not_above (hyx.to_reflTransGen.trans (hbelow hx)) (hbelow hy)
  · intro x hx y hy hyx
    obtain ⟨c, hc, hxc⟩ := List.mem_flatMap.mp hx
    rw [List.mem_singleton.mp hy] at hyx
    have hxp : TransGen f.IsParent x p := .tail' (hbelow hxc) (hf.parent?_of_mem_children hc)
    exact hf.wellFormed.acyclic p (hyx.trans hxp)

/-- **From the leaves up, every node comes after all that is below it.** -/
theorem mem_before_of_contains (hf : f.Sound) {before after : List NodeId}
    (h : f.postorder root = before ++ x :: after) (hxy : TransGen f.Contains x y) :
    y ∈ before := by
  have hx : x ∈ f.preorder root := hf.mem_postorder.mp (by simp [h])
  have hroot := isSome_root hx
  have htree := (hf.treeBelow hroot).preorder.2
  have hy : y ∈ f.postorder root := by
    rw [hf.mem_postorder, htree.mem_iff_reaches]
    exact ReflTransGen.trans (htree.mem_iff_reaches.mp hx) hxy.to_reflTransGen
  have habove := hf.above_of_contains hxy
  have horder := hf.pairwise_postorder hroot
  rw [h] at hy horder
  rcases List.mem_append.mp hy with hy | hy
  · exact hy
  · rcases List.mem_cons.mp hy with rfl | hy
    · exact absurd habove (hf.wellFormed.acyclic y)
    · have hlater := (List.pairwise_cons.mp (List.pairwise_append.mp horder).2.1).1 y hy
      exact absurd habove hlater

end Sound

/-! ### The traversals -/

/-- **The traversals are the recursive orders.**  In every forest that edits lead to,
the traversal from the root down is the only order in which each node is followed by
the trees of its children, and the one from the leaves up the only order in which
each node follows them.  Children are what the cursor of a node comes to until there
is no more: the nodes in public slots, in the order of the property table and of the
lists.  For a node that exists, both traversals end by themselves and list exactly
the nodes that public properties lead to, each once, and from the leaves up every
node comes after all that is below it.  For a number that no node has, they list
nothing. -/
theorem traversals_recursive {m : Metamodel} {f : Forest} (hf : Reachable m f) :
    (∀ order, f.ListsDown order ↔ ∀ id, (f.get? id).isSome → order id = f.preorder id) ∧
    (∀ order, f.ListsUp order ↔ ∀ id, (f.get? id).isSome → order id = f.postorder id) ∧
    (∀ id n, f.get? id = some n → ∃ t, f.metamodel.type n.type = .ok t ∧
      (f.cursor id).Yields (f.children id) ∧
      f.children id = (t.effective.zip n.slots).flatMap fun entry =>
        if entry.1.isPublic then entry.2.owned else []) ∧
    (∀ root, (f.get? root).isSome →
      (f.PreorderRun [root] (f.preorder root) ∧
        (∀ x, x ∈ f.preorder root ↔ f.Reaches root x) ∧ (f.preorder root).Nodup) ∧
      (f.PostorderRun [(root, f.cursor root)] (f.postorder root) ∧
        (∀ x, x ∈ f.postorder root ↔ f.Reaches root x) ∧ (f.postorder root).Nodup) ∧
      ∀ before x after, f.postorder root = before ++ x :: after →
        ∀ y, TransGen f.Contains x y → y ∈ before) ∧
    ∀ root, f.get? root = none → f.preorder root = [] ∧ f.postorder root = [] := by
  have hsound := hf.sound
  refine ⟨hsound.listsDown_iff, hsound.listsUp_iff, ?_, ?_, ?_⟩
  · intro id n hn
    obtain ⟨t, ht, -, -⟩ := hsound.wellTyped hn
    refine ⟨t, ht, ?_, children_eq_shownIn hn ht⟩
    rw [← rest_cursor]
    exact Cursor.yields_rest _
  · intro root hroot
    obtain ⟨hdown, hlistedDown⟩ := (hsound.treeBelow hroot).preorder
    obtain ⟨hup, hlistedUp⟩ := (hsound.treeBelow hroot).postorder
    exact ⟨⟨hdown, fun x => hlistedDown.mem_iff_reaches, hlistedDown.nodup_entered⟩,
      ⟨hup, fun x => hlistedUp.mem_iff_reaches, hlistedUp.nodup_entered⟩,
      fun before x after h y hxy => hsound.mem_before_of_contains h hxy⟩
  · intro root hroot
    simp [preorder, postorder, hroot]

/-- Parts own a first part, a secret one and more in a list. -/
def partModel : Metamodel :=
  Metamodel.grow
    [.type { name := "Part", properties :=
       [{ name := "first", kind := .single },
        { name := "secret", kind := .single, visibility := .hidden },
        { name := "more", kind := .multiple }] }]
    { name := "parts" }

/-- A part that owns parts of each sort, one of which owns others. -/
def partForest : Forest :=
  run [.create "Part", .create "Part", .create "Part", .create "Part", .create "Part",
    .create "Part", .append ⟨0⟩ "more" ⟨1⟩, .append ⟨0⟩ "more" ⟨2⟩,
    .setChild ⟨0⟩ "first" (some ⟨3⟩), .append ⟨1⟩ "more" ⟨4⟩,
    .setChild ⟨1⟩ "secret" (some ⟨5⟩)] { metamodel := partModel }

theorem traversals_recursive_parts :
    (∀ order, partForest.ListsDown order → order ⟨0⟩ = [⟨0⟩, ⟨3⟩, ⟨1⟩, ⟨4⟩, ⟨2⟩]) ∧
    (partForest.cursor ⟨0⟩).Yields [⟨3⟩, ⟨1⟩, ⟨2⟩] ∧
    partForest.PostorderRun [(⟨0⟩, partForest.cursor ⟨0⟩)] [⟨3⟩, ⟨4⟩, ⟨1⟩, ⟨2⟩, ⟨0⟩] ∧
    ¬ partForest.Reaches ⟨0⟩ ⟨5⟩ := by
  have hreach : Reachable partModel partForest := ⟨_, rfl⟩
  have hroot : (partForest.get? ⟨0⟩).isSome := by decide +kernel
  have hdown : partForest.preorder ⟨0⟩ = [⟨0⟩, ⟨3⟩, ⟨1⟩, ⟨4⟩, ⟨2⟩] := by decide +kernel
  have hup : partForest.postorder ⟨0⟩ = [⟨3⟩, ⟨4⟩, ⟨1⟩, ⟨2⟩, ⟨0⟩] := by decide +kernel
  have hchildren : partForest.children ⟨0⟩ = [⟨3⟩, ⟨1⟩, ⟨2⟩] := by decide +kernel
  obtain ⟨hlists, -, hcursors, htrees, -⟩ := traversals_recursive hreach
  obtain ⟨⟨-, hmem, -⟩, ⟨hrun, -⟩, -⟩ := htrees ⟨0⟩ hroot
  obtain ⟨n, hn⟩ := Option.isSome_iff_exists.mp hroot
  obtain ⟨t, -, hyields, -⟩ := hcursors ⟨0⟩ n hn
  refine ⟨fun order horder => ?_, ?_, ?_, ?_⟩
  · rw [(hlists order).mp horder ⟨0⟩ hroot, hdown]
  · rwa [hchildren] at hyields
  · rwa [hup] at hrun
  · rw [← hmem, hdown]
    decide

end TypedForest.Forest
