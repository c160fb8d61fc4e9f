import Mathlib.Algebra.Order.BigOperators.Group.Finset
import TypedForest.Proofs.Forest.Run
import TypedForest.Proofs.Forest.Traversal

/-!
# The check of a tree

The check walks a forest of which nothing is known and remembers the nodes it has
met.  It comes to an end whatever parents and slots say, since a node that is met
is new and exists, and it succeeds exactly if what can be reached from the root is
a tree.  The traversals remember nothing, but after a successful check they need
not.

The nodes met are those of a frontier: the check has entered some of them, and the
others are on its stack.

## Main Definitions

* `Forest.CheckRun`: the check without a budget.
* `Forest.Checked`: what the check knows when it has entered some nodes.
* `Forest.IsTree`: the condition for a tree over the set of its nodes.

## Main Results

* `Forest.checkTree_eq_ok_iff`: the check decides `TreeBelow` and counts.
* `Sound.checkTree_eq`: in a sound forest it succeeds.
* `Forest.checkTree_exact`: what the check decides in every forest.
-/

namespace TypedForest.Forest

open Relation

variable {f : Forest} {root owner : NodeId}

/-! ### The check without a budget -/

/-- From the nodes met and a stack on, the check ends with this outcome. -/
inductive CheckRun (f : Forest) :
    List NodeId → List NodeId → Except Error (List NodeId) → Prop
  | done {met : List NodeId} : CheckRun f met [] (.ok met)
  | refuse {owner : NodeId} {met stack : List NodeId} {e : Error}
      (h : f.meetChildren owner met (f.children owner) = .error e) :
      CheckRun f met (owner :: stack) (.error e)
  | meet {owner : NodeId} {met met' stack : List NodeId} {out : Except Error (List NodeId)}
      (h : f.meetChildren owner met (f.children owner) = .ok met')
      (hnext : CheckRun f met' ((f.children owner).reverse ++ stack) out) :
      CheckRun f met (owner :: stack) out

/-- Children are met exactly if they are new and have the node as their parent. -/
theorem meetChildren_eq_ok {met met' cs : List NodeId} :
    f.meetChildren owner met cs = .ok met' ↔
      (∀ c ∈ cs, f.parent? c = some owner) ∧ cs.Nodup ∧ cs.Disjoint met ∧
        met' = cs.reverse ++ met := by
  induction cs generalizing met with
  | nil => simp [meetChildren, eq_comm]
  | cons c cs ih =>
      rw [meetChildren]
      by_cases hmet : c ∈ met
      · simp [hmet]
      · rw [if_neg hmet]
        cases hn : f.get? c with
        | none => simp [parent?, hn]
        | some n =>
            by_cases hparent : n.parent = some owner
            · simp only [hparent, if_true, ih, List.forall_mem_cons, List.nodup_cons,
                List.disjoint_cons_left, List.disjoint_cons_right, List.reverse_cons,
                List.append_assoc, List.singleton_append, parent?_of_get? hn, true_and, hmet,
                not_false_eq_true, and_assoc]
              exact and_congr_right fun _ => and_left_comm
            · simp [hparent, parent?_of_get? hn]

/-! ### What the check knows -/

/-- The check has entered some nodes and has the others on its stack.  Of the
children of the nodes entered it knows that they name their owner as parent. -/
structure Checked (f : Forest) (root : NodeId) (entered met stack : List NodeId) : Prop
    extends Frontier f root entered stack where
  met_perm : met.Perm (entered ++ stack)
  isSome_root : (f.get? root).isSome
  parent_eq : ∀ p ∈ entered, ∀ c ∈ f.children p, f.parent? c = some p

namespace Checked

variable {entered met stack met' : List NodeId}

theorem start (hroot : (f.get? root).isSome) : f.Checked root [] [root] [root] where
  toFrontier := Frontier.start f root
  met_perm := .refl _
  isSome_root := hroot
  parent_eq := by simp

/-- The nodes met are the root and the children of the nodes entered. -/
theorem met_perm_listed (h : f.Checked root entered met stack) :
    met.Perm (root :: entered.flatMap f.children) :=
  h.met_perm.trans h.perm

theorem length_le_size (h : f.Checked root entered met stack) :
    entered.length + stack.length ≤ f.size := by
  rw [← List.length_append]
  refine Forest.length_le_size h.nodup fun x hx => ?_
  rcases List.mem_cons.mp (h.perm.mem_iff.mp hx) with rfl | hx
  · exact h.isSome_root
  · obtain ⟨p, hp, hc⟩ := List.mem_flatMap.mp hx
    exact isSome_of_parent? (h.parent_eq p hp x hc)

/-- **What one step of the check preserves.** -/
theorem meet (h : f.Checked root entered met (owner :: stack))
    (hmeet : f.meetChildren owner met (f.children owner) = .ok met') :
    f.Checked root (owner :: entered) met' ((f.children owner).reverse ++ stack) := by
  obtain ⟨hparent, hnodup, hnew, rfl⟩ := meetChildren_eq_ok.mp hmeet
  have hrev := List.reverse_perm (f.children owner)
  have hlisted : ((f.children owner).reverse ++ met).Perm
      (root :: (owner :: entered).flatMap f.children) :=
    (hrev.append h.met_perm_listed).trans List.perm_middle
  have hdistinct : ((f.children owner).reverse ++ met).Nodup := by
    rw [(hrev.append_right met).nodup_iff]
    exact List.nodup_append'.mpr ⟨hnodup, h.met_perm.nodup_iff.mpr h.nodup, hnew⟩
  have hfrontier := (h.toFrontier.enter (hlisted.nodup_iff.mp hdistinct)).of_perm
    (.refl _) (hrev.symm.append_right stack)
  exact
    { toFrontier := hfrontier
      met_perm := hlisted.trans hfrontier.perm.symm
      isSome_root := h.isSome_root
      parent_eq := List.forall_mem_cons.mpr ⟨hparent, h.parent_eq⟩ }

/-- **The check comes to an end within its budget.**  There is budget for the nodes
that have not been entered. -/
theorem checkRun (budget : Nat) :
    ∀ {entered met stack : List NodeId}, f.Checked root entered met stack →
      f.size ≤ budget + entered.length → f.CheckRun met stack (f.meetBelow budget met stack) := by
  induction budget with
  | zero =>
      intro entered met stack h hbudget
      have hle := h.length_le_size
      obtain rfl : stack = [] := List.length_eq_zero_iff.mp (by omega)
      exact .done
  | succ budget ih =>
      intro entered met stack h hbudget
      cases stack with
      | nil => exact .done
      | cons owner stack =>
          rw [meetBelow]
          cases hmeet : f.meetChildren owner met (f.children owner) with
          | error e => exact .refuse hmeet
          | ok met' => exact .meet hmeet (ih (h.meet hmeet) (by rw [List.length_cons]; omega))

/-- **What a successful check knows at its end.** -/
theorem exists_of_checkRun (h : f.Checked root entered met stack)
    (hrun : f.CheckRun met stack (.ok met')) :
    ∃ entered', f.Checked root entered' met' [] := by
  generalize hout : Except.ok met' = out at hrun
  induction hrun generalizing entered with
  | done =>
      obtain rfl := Except.ok.inj hout
      exact ⟨entered, h⟩
  | refuse _ => cases hout
  | meet hmeet _ ih => exact ih (h.meet hmeet) hout

/-- With nothing left on the stack, the nodes met form a tree. -/
theorem treeBelow (h : f.Checked root entered met []) : f.TreeBelow root := by
  have hlisted : (root :: entered.flatMap f.children).Nodup := by
    rw [← h.perm.nodup_iff]
    exact h.nodup
  obtain ⟨hroot, hchildren⟩ := List.nodup_cons.mp hlisted
  refine ⟨h.isSome_root, ?_, ?_, ?_⟩
  · intro p c hp hc
    exact h.parent_eq p (h.mem_iff_reaches.mpr hp) c hc
  · rintro p _ hp hc rfl
    exact hroot (List.mem_flatMap.mpr ⟨p, h.mem_iff_reaches.mpr hp, hc⟩)
  · intro p hp
    exact (List.nodup_flatMap.mp hchildren).1 p (h.mem_iff_reaches.mpr hp)

/-- The check of a tree is not refused: no child of the node at hand has been met. -/
theorem exists_met_of_treeBelow (h : f.Checked root entered met stack)
    (htree : f.TreeBelow root) {out : Except Error (List NodeId)}
    (hrun : f.CheckRun met stack out) : ∃ met', out = .ok met' := by
  induction hrun generalizing entered with
  | done => exact ⟨_, rfl⟩
  | @refuse owner met stack e hmeet =>
      have howner := h.reaches owner (by simp)
      have hnext := (htree.enter h.toFrontier).perm.nodup_iff.mp
        (htree.enter h.toFrontier).nodup
      have hnew : (f.children owner).Disjoint met := by
        have hmet : (f.children owner ++ met).Nodup :=
          ((h.met_perm_listed.append_left _).trans List.perm_middle).nodup_iff.mpr hnext
        exact (List.nodup_append'.mp hmet).2.2
      have hok := meetChildren_eq_ok.mpr ⟨fun c hc => htree.parent_eq howner hc,
        htree.nodup_children howner, hnew, rfl⟩
      rw [hmeet] at hok
      cases hok
  | meet hmeet _ ih => exact ih (h.meet hmeet)

end Checked

/-! ### What the check decides -/

theorem checkTree_of_get?_eq_none (h : f.get? root = none) :
    f.checkTree root = .error (.unknownNode root) := by
  simp [checkTree, node, h]

/-- The check ends by itself, with this outcome. -/
theorem exists_checkRun (hroot : (f.get? root).isSome) :
    ∃ out, f.CheckRun [root] [root] out ∧ f.checkTree root = out.map List.length := by
  obtain ⟨n, hn⟩ := Option.isSome_iff_exists.mp hroot
  refine ⟨_, Checked.checkRun f.size (Checked.start hroot) (Nat.le_add_right _ _), ?_⟩
  simp [checkTree, node, hn]

/-- **The check succeeds exactly on trees, and counts the nodes that a complete walk
enters.** -/
theorem checkTree_eq_ok_iff {n : Nat} :
    f.checkTree root = .ok n ↔
      f.TreeBelow root ∧ ∃ entered, f.Frontier root entered [] ∧ n = entered.length := by
  constructor
  · intro h
    have hroot : (f.get? root).isSome := by
      rw [Option.isSome_iff_ne_none]
      intro hn
      rw [checkTree_of_get?_eq_none hn] at h
      cases h
    obtain ⟨out, hrun, hout⟩ := exists_checkRun hroot
    rw [h] at hout
    cases out with
    | error e => cases hout
    | ok met =>
        obtain ⟨entered, hchecked⟩ := (Checked.start hroot).exists_of_checkRun hrun
        have hlen := hchecked.met_perm.length_eq
        rw [List.append_nil] at hlen
        exact ⟨hchecked.treeBelow, entered, hchecked.toFrontier,
          (Except.ok.inj hout).trans hlen⟩
  · rintro ⟨htree, entered, hfrontier, rfl⟩
    obtain ⟨out, hrun, hout⟩ := exists_checkRun htree.isSome_root
    have hstart := Checked.start htree.isSome_root
    obtain ⟨met, rfl⟩ := hstart.exists_met_of_treeBelow htree hrun
    obtain ⟨entered', hchecked⟩ := hstart.exists_of_checkRun hrun
    have hmet : met.Perm entered := by
      refine hchecked.met_perm.trans ?_
      rw [List.append_nil]
      exact hchecked.toFrontier.perm_entered hfrontier
    rw [hout, ← hmet.length_eq]
    rfl

/-- **In a sound forest the check of a tree succeeds and counts its nodes.** -/
theorem Sound.checkTree_eq (hf : f.Sound) (hroot : (f.get? root).isSome) :
    f.checkTree root = .ok (f.preorder root).length :=
  checkTree_eq_ok_iff.mpr ⟨hf.treeBelow hroot, _, (hf.treeBelow hroot).preorder.2, rfl⟩

/-- The children of the nodes of a tree are its nodes without the root. -/
theorem Sound.perm_flatMap_children (hf : f.Sound) (hroot : (f.get? root).isSome) :
    ((f.preorder root).flatMap f.children).Perm (f.below root) := by
  have hperm := (hf.treeBelow hroot).preorder.2.perm
  rw [List.append_nil] at hperm
  nth_rewrite 1 [hf.preorder_eq hroot] at hperm
  exact hperm.cons_inv.symm

/-! ### The condition over the set of nodes -/

/-- The set holds the nodes that can be reached from `root`, and they form a tree. -/
structure IsTree (f : Forest) (root : NodeId) (nodes : Finset NodeId) : Prop where
  mem_iff : ∀ x, x ∈ nodes ↔ f.Reaches root x
  isSome_root : (f.get? root).isSome
  isSome_child : ∀ p ∈ nodes, ∀ c, f.Contains p c → (f.get? c).isSome
  parent_eq : ∀ p ∈ nodes, ∀ c, f.Contains p c → f.parent? c = some p
  ne_root : ∀ p ∈ nodes, ∀ c, f.Contains p c → c ≠ root
  /-- Over the public slots of all nodes of the set, a child is listed once. -/
  listed_once : ∀ p ∈ nodes, ∀ c, f.Contains p c → ∑ q ∈ nodes, (f.children q).count c = 1

/-- A child that is listed once over all nodes is listed once by its owner. -/
theorem IsTree.treeBelow {nodes : Finset NodeId} (h : f.IsTree root nodes) :
    f.TreeBelow root where
  isSome_root := h.isSome_root
  parent_eq hp hc := h.parent_eq _ ((h.mem_iff _).mpr hp) _ (mem_children.mp hc)
  ne_root hp hc := h.ne_root _ ((h.mem_iff _).mpr hp) _ (mem_children.mp hc)
  nodup_children := by
    intro p hp
    refine List.nodup_iff_count_le_one.mpr fun c => ?_
    by_cases hc : c ∈ f.children p
    · have hmem := (h.mem_iff p).mpr hp
      rw [← h.listed_once p hmem c (mem_children.mp hc)]
      exact Finset.single_le_sum (f := fun q => (f.children q).count c)
        (fun q _ => Nat.zero_le _) hmem
    · rw [List.count_eq_zero_of_not_mem hc]
      exact Nat.zero_le 1

/-- The nodes of a tree are the nodes that a complete walk has entered. -/
theorem TreeBelow.isTree (h : f.TreeBelow root) {entered : List NodeId}
    (hfrontier : f.Frontier root entered []) : f.IsTree root entered.toFinset := by
  have hmem : ∀ x, x ∈ entered.toFinset ↔ f.Reaches root x := fun x =>
    List.mem_toFinset.trans hfrontier.mem_iff_reaches
  have hparent : ∀ p ∈ entered.toFinset, ∀ c, f.Contains p c → f.parent? c = some p :=
    fun p hp c hc => h.parent_eq ((hmem p).mp hp) (mem_children.mpr hc)
  refine ⟨hmem, h.isSome_root, fun p hp c hc => isSome_of_parent? (hparent p hp c hc), hparent,
    fun p hp c hc => h.ne_root ((hmem p).mp hp) (mem_children.mpr hc), ?_⟩
  intro p hp c hc
  rw [Finset.sum_eq_single_of_mem p hp]
  · exact List.count_eq_one_of_mem (h.nodup_children ((hmem p).mp hp)) (mem_children.mpr hc)
  · -- Another node that lists the child would be its parent as well.
    intro q hq hne
    refine List.count_eq_zero_of_not_mem fun hcq => hne ?_
    have hboth := (hparent q hq c (mem_children.mp hcq)).symm.trans (hparent p hp c hc)
    exact Option.some.inj hboth

/-- **What the check decides, in any forest.**  It comes to an end.  It succeeds with
the number `n` exactly if the root exists and, over the set of nodes that can be
reached through public properties, each child exists, has its owner as parent, is not
the root and is listed once; `n` is the number of nodes in the set.  If it succeeds,
both traversals end by themselves and list `n` distinct nodes.  In forests that edits
lead to, it succeeds for every node. -/
theorem checkTree_exact (f : Forest) (root : NodeId) :
    (f.get? root = none ∧ f.checkTree root = .error (.unknownNode root) ∨
      ∃ out, f.CheckRun [root] [root] out ∧ f.checkTree root = out.map List.length) ∧
    (∀ n, f.checkTree root = .ok n ↔ ∃ nodes, f.IsTree root nodes ∧ n = nodes.card) ∧
    (∀ n, f.checkTree root = .ok n →
      (f.PreorderRun [root] (f.preorder root) ∧
        (f.preorder root).length = n ∧ (f.preorder root).Nodup) ∧
      f.PostorderRun [(root, f.cursor root)] (f.postorder root) ∧
        (f.postorder root).length = n ∧ (f.postorder root).Nodup) ∧
    ∀ m, Reachable m f → (f.get? root).isSome → ∃ n, f.checkTree root = .ok n := by
  refine ⟨?_, ?_, ?_, ?_⟩
  · cases hn : f.get? root with
    | none => exact .inl ⟨rfl, checkTree_of_get?_eq_none hn⟩
    | some n => exact .inr (exists_checkRun (by simp [hn]))
  · intro n
    rw [checkTree_eq_ok_iff]
    constructor
    · rintro ⟨htree, entered, hfrontier, rfl⟩
      refine ⟨entered.toFinset, htree.isTree hfrontier, ?_⟩
      rw [List.toFinset_card_of_nodup hfrontier.nodup_entered]
    · rintro ⟨nodes, hnodes, rfl⟩
      have htree := hnodes.treeBelow
      have hfrontier := htree.preorder.2
      refine ⟨htree, f.preorder root, hfrontier, ?_⟩
      have hsame : nodes = (f.preorder root).toFinset := by
        ext x
        rw [hnodes.mem_iff, List.mem_toFinset, hfrontier.mem_iff_reaches]
      rw [hsame, List.toFinset_card_of_nodup hfrontier.nodup_entered]
  · intro n hn
    obtain ⟨htree, entered, hfrontier, rfl⟩ := checkTree_eq_ok_iff.mp hn
    have hsame : ∀ {listed : List NodeId}, f.Frontier root listed [] →
        listed.length = entered.length ∧ listed.Nodup := fun hlisted =>
      ⟨(hlisted.perm_entered hfrontier).length_eq, hlisted.nodup_entered⟩
    exact ⟨⟨htree.preorder.1, hsame htree.preorder.2⟩, htree.postorder.1,
      hsame htree.postorder.2⟩
  · intro m hm hroot
    exact ⟨_, hm.sound.checkTree_eq hroot⟩

/-- Four boxes that no edits lead to.  The first holds the second and the third; the
last holds itself, and a box that does not exist. -/
def tangledForest : Forest where
  metamodel :=
    let parts : Property := { name := "parts", kind := .multiple, declaredBy := "Box" }
    { name := "boxes", order := ["Box"]
      table := Dictionary.empty.insert "Box" ⟨"Box", [], false, [parts], [parts]⟩ }
  nodes :=
    [{ id := ⟨0⟩, type := "Box", slots := [.children (some [⟨1⟩, ⟨2⟩])] },
     { id := ⟨1⟩, type := "Box", parent := some ⟨0⟩, slots := [.children (some [])] },
     { id := ⟨2⟩, type := "Box", parent := some ⟨0⟩, slots := [.ignored] },
     { id := ⟨3⟩, type := "Box", parent := some ⟨3⟩, slots := [.children (some [⟨3⟩, ⟨9⟩])] }]

theorem checkTree_exact_tangled :
    (∃ nodes, tangledForest.IsTree ⟨0⟩ nodes ∧ 3 = nodes.card) ∧
    (tangledForest.postorder ⟨0⟩).length = 3 ∧ (tangledForest.postorder ⟨0⟩).Nodup ∧
    ¬ ∃ nodes, tangledForest.IsTree ⟨3⟩ nodes := by
  have hfirst := checkTree_exact tangledForest ⟨0⟩
  have hok : tangledForest.checkTree ⟨0⟩ = .ok 3 := by rfl
  have hlast := checkTree_exact tangledForest ⟨3⟩
  refine ⟨(hfirst.2.1 3).mp hok, (hfirst.2.2.1 3 hok).2.2.1, (hfirst.2.2.1 3 hok).2.2.2, ?_⟩
  rintro ⟨nodes, hnodes⟩
  have hrefused := (hlast.2.1 nodes.card).mpr ⟨nodes, hnodes, rfl⟩
  cases hrefused

end TypedForest.Forest
