import TypedForest.Proofs.Forest.Cursor

/-!
# How far a walk has come

The traversals and the check of a tree walk a forest with a stack.  Nothing is
known of the forest here: parents may lie, lists may repeat a node, and slots may
lead in a circle.  At any time such a walk has entered some nodes, whose children
it has seen, and has others left to enter.  The nodes entered and the nodes left
are the root and all children seen so far (`Frontier`), and one more node entered
keeps it that way.  When nothing is left, the nodes entered are those that can be
reached.

A walk terminates if it never enters a node twice.  Below a node where each child
has one place and names its owner as parent (`TreeBelow`) this is so for every
walk, whether it remembers what it has met or not.  The traversals then have the
recursive readings one expects: a node and then the trees below it, or the trees
below it and then the node.

## Main Definitions

* `Forest.Reaches`: public properties lead from one node to another.
* `Forest.PreorderRun`, `Forest.PostorderRun`: the traversals without a budget.
* `Forest.Frontier`: how far a walk has come.
* `Forest.TreeBelow`: the nodes that can be reached from a node form a tree.
* `Forest.below`: the nodes below a node, without the node itself.

## Main Results

* `Frontier.mem_iff_reaches`: a walk with nothing left has entered what can be reached.
* `TreeBelow.preorderRun`, `TreeBelow.postorderRun`: the traversals of a tree come to
  an end within their budgets.
* `TreeBelow.preorder_eq`, `TreeBelow.postorder_eq`: the recursive readings.
-/

namespace TypedForest.Forest

open Relation

variable {f : Forest} {root : NodeId}

/-- Public properties lead from `root` to the node, in any number of steps. -/
def Reaches (f : Forest) : NodeId → NodeId → Prop := ReflTransGen f.Contains

theorem Reaches.child {p c : NodeId} (h : f.Reaches root p) (hc : c ∈ f.children p) :
    f.Reaches root c :=
  ReflTransGen.tail h (mem_children.mp hc)

/-! ### Traversals without a budget -/

/-- From a stack on, the traversal from the root down lists these nodes and ends
with nothing on the stack. -/
inductive PreorderRun (f : Forest) : List NodeId → List NodeId → Prop
  | done : PreorderRun f [] []
  | visit {id : NodeId} {stack out : List NodeId}
      (h : PreorderRun f (f.children id ++ stack) out) : PreorderRun f (id :: stack) (id :: out)

/-- From a stack on, the traversal from the leaves up lists these nodes and ends
with nothing on the stack. -/
inductive PostorderRun (f : Forest) : List (NodeId × Cursor) → List NodeId → Prop
  | done : PostorderRun f [] []
  | leave {id : NodeId} {cursor : Cursor} {stack : List (NodeId × Cursor)} {out : List NodeId}
      (hnext : cursor.next.1 = none) (h : PostorderRun f stack out) :
      PostorderRun f ((id, cursor) :: stack) (id :: out)
  | enter {id c : NodeId} {cursor behind : Cursor} {stack : List (NodeId × Cursor)}
      {out : List NodeId} (hnext : cursor.next = (some c, behind))
      (h : PostorderRun f ((c, f.cursor c) :: (id, behind) :: stack) out) :
      PostorderRun f ((id, cursor) :: stack) out

namespace PreorderRun

variable {stack stack' out out' : List NodeId}

/-- A traversal has one course. -/
theorem unique (h : f.PreorderRun stack out) (h' : f.PreorderRun stack out') : out = out' := by
  induction h generalizing out' with
  | done =>
      cases h'
      rfl
  | visit _ ih =>
      cases h' with
      | visit h' => rw [ih h']

/-- What is at the bottom of a stack is traversed last. -/
theorem append (h : f.PreorderRun stack out) (h' : f.PreorderRun stack' out') :
    f.PreorderRun (stack ++ stack') (out ++ out') := by
  induction h with
  | done => exact h'
  | visit _ ih =>
      rw [List.append_assoc] at ih
      exact .visit ih

/-- The trees of a stack are traversed one after the other. -/
theorem flatMap {order : NodeId → List NodeId}
    (h : ∀ c ∈ stack, f.PreorderRun [c] (order c)) : f.PreorderRun stack (stack.flatMap order) := by
  induction stack with
  | nil => exact .done
  | cons c stack ih =>
      rw [List.forall_mem_cons] at h
      exact h.1.append (ih h.2)

end PreorderRun

namespace PostorderRun

variable {stack stack' : List (NodeId × Cursor)} {out out' : List NodeId}

theorem unique (h : f.PostorderRun stack out) (h' : f.PostorderRun stack out') : out = out' := by
  induction h generalizing out' with
  | done =>
      cases h'
      rfl
  | leave hnext _ ih =>
      cases h' with
      | leave _ h' => rw [ih h']
      | enter hnext' _ =>
          rw [hnext'] at hnext
          cases hnext
  | enter hnext _ ih =>
      cases h' with
      | leave hnext' _ =>
          rw [hnext] at hnext'
          cases hnext'
      | enter hnext' h' =>
          cases hnext.symm.trans hnext'
          exact ih h'

theorem append (h : f.PostorderRun stack out) (h' : f.PostorderRun stack' out') :
    f.PostorderRun (stack ++ stack') (out ++ out') := by
  induction h with
  | done => exact h'
  | leave hnext _ ih => exact .leave hnext ih
  | enter hnext _ ih => exact .enter hnext ih

/-- The trees before a cursor are traversed one after the other, and then its node is
left. -/
theorem flatMap {order : NodeId → List NodeId} {cursor : Cursor} (id : NodeId)
    (h : ∀ c ∈ cursor.rest, f.PostorderRun [(c, f.cursor c)] (order c)) :
    f.PostorderRun [(id, cursor)] (cursor.rest.flatMap order ++ [id]) := by
  generalize hrest : cursor.rest = cs at h
  induction cs generalizing cursor with
  | nil => exact .leave (Cursor.next_of_rest_nil hrest) .done
  | cons c cs ih =>
      obtain ⟨behind, hnext, hcs⟩ := Cursor.exists_next_of_rest_cons hrest
      rw [List.forall_mem_cons] at h
      rw [List.flatMap_cons, List.append_assoc]
      exact .enter hnext (h.1.append (ih hcs h.2))

end PostorderRun

/-! ### Frontiers -/

/-- A walk from `root` has entered some nodes and has others left to enter.  They
are distinct, and they are the root and the children of the nodes entered. -/
structure Frontier (f : Forest) (root : NodeId) (entered left : List NodeId) : Prop where
  perm : (entered ++ left).Perm (root :: entered.flatMap f.children)
  nodup : (entered ++ left).Nodup
  reaches : ∀ x ∈ entered ++ left, f.Reaches root x

namespace Frontier

variable {entered left entered' left' : List NodeId} {c : NodeId}

theorem start (f : Forest) (root : NodeId) : f.Frontier root [] [root] where
  perm := .refl _
  nodup := List.nodup_singleton root
  reaches := by
    intro x hx
    rw [List.mem_singleton.mp hx]
    exact .refl

/-- The order of the nodes does not matter. -/
theorem of_perm (h : f.Frontier root entered left) (hentered : entered.Perm entered')
    (hleft : left.Perm left') : f.Frontier root entered' left' := by
  have hperm := hentered.append hleft
  exact
    { perm := hperm.symm.trans (h.perm.trans ((hentered.flatMap_right _).cons root))
      nodup := hperm.nodup_iff.mp h.nodup
      reaches := fun x hx => h.reaches x (hperm.mem_iff.mpr hx) }

/-- When a node is entered, its children are added to what has been seen. -/
theorem perm_enter (h : f.Frontier root entered (c :: left)) :
    (c :: entered ++ (f.children c ++ left)).Perm
      (root :: (c :: entered).flatMap f.children) := by
  calc c :: entered ++ (f.children c ++ left)
    _ |>.Perm (f.children c ++ (c :: entered ++ left)) := by
        rw [← List.append_assoc, ← List.append_assoc]
        exact List.perm_append_comm.append_right left
    _ |>.Perm (f.children c ++ (entered ++ c :: left)) := List.perm_middle.symm.append_left _
    _ |>.Perm (f.children c ++ root :: entered.flatMap f.children) := h.perm.append_left _
    _ |>.Perm (root :: (f.children c ++ entered.flatMap f.children)) := List.perm_middle

/-- One more node is entered; what has then been seen must be distinct. -/
theorem enter (h : f.Frontier root entered (c :: left))
    (hnodup : (root :: (c :: entered).flatMap f.children).Nodup) :
    f.Frontier root (c :: entered) (f.children c ++ left) where
  perm := h.perm_enter
  nodup := h.perm_enter.nodup_iff.mpr hnodup
  reaches := by
    have hold : ∀ x ∈ c :: entered ++ left, f.Reaches root x :=
      fun x hx => h.reaches x (List.perm_middle.mem_iff.mpr hx)
    intro x hx
    rcases List.mem_append.mp hx with hx | hx
    · exact hold x (List.mem_append_left _ hx)
    · rcases List.mem_append.mp hx with hx | hx
      · exact (hold c (by simp)).child hx
      · exact hold x (List.mem_append_right _ hx)

/-- **A walk with nothing left has entered exactly the nodes that can be reached.** -/
theorem mem_iff_reaches (h : f.Frontier root entered []) {x : NodeId} :
    x ∈ entered ↔ f.Reaches root x := by
  have hperm := h.perm
  rw [List.append_nil] at hperm
  constructor
  · intro hx
    exact h.reaches x (by simpa using hx)
  · intro hx
    induction hx with
    | refl => exact hperm.mem_iff.mpr List.mem_cons_self
    | @tail p c _ hpc ih =>
        have hlisted : c ∈ entered.flatMap f.children :=
          List.mem_flatMap.mpr ⟨p, ih, mem_children.mpr hpc⟩
        exact hperm.mem_iff.mpr (List.mem_cons_of_mem root hlisted)

theorem nodup_entered (h : f.Frontier root entered []) : entered.Nodup := by
  simpa using h.nodup

/-- Walks with nothing left have entered the same nodes. -/
theorem perm_entered (h : f.Frontier root entered []) (h' : f.Frontier root entered' []) :
    entered.Perm entered' := by
  refine (List.perm_ext_iff_of_nodup h.nodup_entered h'.nodup_entered).mpr fun x => ?_
  rw [h.mem_iff_reaches, h'.mem_iff_reaches]

/-- A walk does not enter more nodes than there are. -/
theorem length_le_size (h : f.Frontier root entered left)
    (hexists : ∀ x, f.Reaches root x → (f.get? x).isSome) :
    entered.length + left.length ≤ f.size := by
  rw [← List.length_append]
  exact Forest.length_le_size h.nodup fun x hx => hexists x (h.reaches x hx)

end Frontier

/-! ### Trees -/

/-- The nodes that can be reached from `root` form a tree: each child names its
owner as parent and has one place there, and the root is nobody's child. -/
structure TreeBelow (f : Forest) (root : NodeId) : Prop where
  isSome_root : (f.get? root).isSome
  parent_eq : ∀ {p c : NodeId}, f.Reaches root p → c ∈ f.children p → f.parent? c = some p
  ne_root : ∀ {p c : NodeId}, f.Reaches root p → c ∈ f.children p → c ≠ root
  nodup_children : ∀ {p : NodeId}, f.Reaches root p → (f.children p).Nodup

namespace TreeBelow

variable {entered left : List NodeId} {c : NodeId}

theorem isSome_of_reaches (h : f.TreeBelow root) {x : NodeId} (hx : f.Reaches root x) :
    (f.get? x).isSome := by
  rcases ReflTransGen.cases_tail hx with rfl | ⟨p, hp, hpx⟩
  · exact h.isSome_root
  · exact isSome_of_parent? (h.parent_eq hp (mem_children.mpr hpx))

/-- The children of distinct nodes of a tree are distinct, and none is the root. -/
theorem nodup_listed (h : f.TreeBelow root) (hnodup : entered.Nodup)
    (hreaches : ∀ p ∈ entered, f.Reaches root p) :
    (root :: entered.flatMap f.children).Nodup := by
  refine List.nodup_cons.mpr ⟨fun hmem => ?_, List.nodup_flatMap.mpr
    ⟨fun p hp => h.nodup_children (hreaches p hp), hnodup.imp_of_mem ?_⟩⟩
  · obtain ⟨p, hp, hroot⟩ := List.mem_flatMap.mp hmem
    exact h.ne_root (hreaches p hp) hroot rfl
  · intro p q hp hq hne c hcp hcq
    have hpq := (h.parent_eq (hreaches p hp) hcp).symm.trans (h.parent_eq (hreaches q hq) hcq)
    exact hne (Option.some.inj hpq)

/-- In a tree, any node that is left may be entered. -/
theorem enter (h : f.TreeBelow root) (hfrontier : f.Frontier root entered (c :: left)) :
    f.Frontier root (c :: entered) (f.children c ++ left) := by
  have hold : (c :: entered ++ left).Nodup := List.perm_middle.nodup_iff.mp hfrontier.nodup
  refine hfrontier.enter (h.nodup_listed (List.nodup_append.mp hold).1 fun p hp => ?_)
  exact hfrontier.reaches p (List.perm_middle.mem_iff.mpr (List.mem_append_left left hp))

theorem length_le_size (h : f.TreeBelow root) (hfrontier : f.Frontier root entered left) :
    entered.length + left.length ≤ f.size :=
  hfrontier.length_le_size fun _ => h.isSome_of_reaches

end TreeBelow

/-! ### Traversals of trees -/

/-- What is left to enter is on the stack; each step enters one node. -/
theorem PreorderRun.frontier {stack out entered : List NodeId} (hrun : f.PreorderRun stack out)
    (h : f.TreeBelow root) (hfrontier : f.Frontier root entered stack) :
    f.Frontier root (entered ++ out) [] := by
  induction hrun generalizing entered with
  | done => rwa [List.append_nil]
  | visit _ ih => exact (ih (h.enter hfrontier)).of_perm List.perm_middle.symm (.refl _)

/-- What is left to enter is before the cursors on the stack; the nodes entered have
been listed or are on the stack themselves. -/
theorem PostorderRun.frontier {stack : List (NodeId × Cursor)} {out listed : List NodeId}
    (hrun : f.PostorderRun stack out) (h : f.TreeBelow root)
    (hfrontier : f.Frontier root (listed ++ stack.map Prod.fst)
      (stack.flatMap fun frame => frame.2.rest)) :
    f.Frontier root (listed ++ out) [] := by
  induction hrun generalizing listed with
  | done => exact hfrontier
  | @leave id cursor stack out hnext _ ih =>
      have hrest : cursor.rest = [] := List.head?_eq_none_iff.mp (cursor.next_eq.1 ▸ hnext)
      have hlisted : f.Frontier root ((listed ++ [id]) ++ stack.map Prod.fst)
          (stack.flatMap fun frame => frame.2.rest) := by simpa [hrest] using hfrontier
      simpa using ih hlisted
  | @enter id c cursor behind stack out hnext _ ih =>
      have hrest : cursor.rest = c :: behind.rest := by
        obtain ⟨hchild, hbehind⟩ := cursor.next_eq
        rw [hnext] at hchild hbehind
        rw [hbehind]
        exact (List.cons_head?_tail hchild.symm).symm
      have hleft : f.Frontier root (listed ++ id :: stack.map Prod.fst)
          (c :: (behind.rest ++ stack.flatMap fun frame => frame.2.rest)) := by
        simpa [hrest] using hfrontier
      refine ih ((h.enter hleft).of_perm List.perm_middle.symm ?_)
      simp [rest_cursor]

/-- With budget for the nodes that have not been entered, the traversal from the
root down comes to its end. -/
theorem TreeBelow.preorderRun (h : f.TreeBelow root) (budget : Nat) :
    ∀ {entered stack : List NodeId}, f.Frontier root entered stack →
      f.size ≤ budget + entered.length → f.PreorderRun stack (f.unfoldPreorder budget stack) := by
  induction budget with
  | zero =>
      intro entered stack hfrontier hbudget
      have hle := h.length_le_size hfrontier
      obtain rfl : stack = [] := List.length_eq_zero_iff.mp (by omega)
      exact .done
  | succ budget ih =>
      intro entered stack hfrontier hbudget
      cases stack with
      | nil => exact .done
      | cons id stack =>
          exact .visit (ih (h.enter hfrontier) (by rw [List.length_cons]; omega))

/-- With budget to enter the nodes that have not been entered, and to leave these
and those on the stack, so does the traversal from the leaves up. -/
theorem TreeBelow.postorderRun (h : f.TreeBelow root) (budget : Nat) :
    ∀ {entered : List NodeId} {stack : List (NodeId × Cursor)},
      f.Frontier root entered (stack.flatMap fun frame => frame.2.rest) →
      stack.length + 2 * f.size ≤ budget + 2 * entered.length →
      f.PostorderRun stack (f.unfoldPostorder budget stack) := by
  induction budget with
  | zero =>
      intro entered stack hfrontier hbudget
      have hle := h.length_le_size hfrontier
      obtain rfl : stack = [] := List.length_eq_zero_iff.mp (by omega)
      exact .done
  | succ budget ih =>
      intro entered stack hfrontier hbudget
      cases stack with
      | nil => exact .done
      | cons frame stack =>
          obtain ⟨id, cursor⟩ := frame
          rw [List.length_cons] at hbudget
          rw [List.flatMap_cons] at hfrontier
          cases hrest : cursor.rest with
          | nil =>
              rw [hrest] at hfrontier
              rw [unfoldPostorder_leave hrest]
              exact .leave (Cursor.next_of_rest_nil hrest) (ih hfrontier (by omega))
          | cons c cs =>
              obtain ⟨behind, hnext, rfl, hstep⟩ := exists_unfoldPostorder_enter hrest
              rw [hrest] at hfrontier
              rw [hstep]
              refine .enter hnext (ih ((h.enter hfrontier).of_perm (.refl _) ?_) ?_)
              · simp [rest_cursor]
              · simp only [List.length_cons]
                omega

/-- **The traversal of a tree from the root down ends by itself and lists what can
be reached, each node once.** -/
theorem TreeBelow.preorder (h : f.TreeBelow root) :
    f.PreorderRun [root] (f.preorder root) ∧ f.Frontier root (f.preorder root) [] := by
  have hstart := Frontier.start f root
  have hrun := h.preorderRun f.size hstart (Nat.le_add_right _ _)
  rw [Forest.preorder, if_pos h.isSome_root]
  exact ⟨hrun, hrun.frontier h hstart⟩

/-- **So does the traversal from the leaves up.** -/
theorem TreeBelow.postorder (h : f.TreeBelow root) :
    f.PostorderRun [(root, f.cursor root)] (f.postorder root) ∧
      f.Frontier root (f.postorder root) [] := by
  have hstart : f.Frontier root ([] ++ [(root, f.cursor root)].map Prod.fst)
      ([(root, f.cursor root)].flatMap fun frame => frame.2.rest) := by
    refine (h.enter (Frontier.start f root)).of_perm (.refl _) ?_
    simp [rest_cursor]
  have hrun := h.postorderRun (2 * f.size) hstart (by simp; omega)
  rw [Forest.postorder, if_pos h.isSome_root]
  exact ⟨hrun, hrun.frontier h hstart⟩

/-! ### The recursive readings -/

/-- The nodes below a node, without the node itself. -/
def below (f : Forest) (id : NodeId) : List NodeId := (f.children id).flatMap f.preorder

/-- What can be reached from a child of the root is a tree, too. -/
theorem TreeBelow.child (h : f.TreeBelow root) {c : NodeId} (hc : c ∈ f.children root) :
    f.TreeBelow c := by
  have hdown : ∀ {x : NodeId}, f.Reaches c x → f.Reaches root x := fun hx =>
    ReflTransGen.head (mem_children.mp hc) hx
  have hparent : f.parent? c = some root := h.parent_eq .refl hc
  refine ⟨isSome_of_parent? hparent, fun hp => h.parent_eq (hdown hp), ?_,
    fun hp => h.nodup_children (hdown hp)⟩
  rintro p _ hp hcp rfl
  -- Otherwise the root, being the parent of the child, would be reached from there.
  obtain rfl : root = p := Option.some.inj (hparent.symm.trans (h.parent_eq (hdown hp) hcp))
  rcases ReflTransGen.cases_tail hp with heq | ⟨q, hq, hroot⟩
  · exact h.ne_root .refl hc heq.symm
  · exact h.ne_root (hdown hq) (mem_children.mpr hroot) rfl

/-- **From the root down: the node, and then the trees below it.** -/
theorem TreeBelow.preorder_eq (h : f.TreeBelow root) : f.preorder root = root :: f.below root := by
  have hchildren : f.PreorderRun (f.children root ++ []) (f.below root) := by
    rw [List.append_nil]
    exact .flatMap fun c hc => (h.child hc).preorder.1
  exact h.preorder.1.unique (.visit hchildren)

/-- **From the leaves up: the trees below the node, and then the node.** -/
theorem TreeBelow.postorder_eq (h : f.TreeBelow root) :
    f.postorder root = (f.children root).flatMap f.postorder ++ [root] := by
  have hbelow : ∀ c ∈ (f.cursor root).rest, f.PostorderRun [(c, f.cursor c)] (f.postorder c) := by
    intro c hc
    rw [rest_cursor] at hc
    exact (h.child hc).postorder.1
  have hchildren := PostorderRun.flatMap root hbelow
  rw [rest_cursor] at hchildren
  exact h.postorder.1.unique hchildren

end TypedForest.Forest
