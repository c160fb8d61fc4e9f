import Mathlib.Data.List.Flatten
import TypedForest.Forest.Containment
import TypedForest.Proofs.Forest.Place

/-!
# Cursors and children

A cursor is moved through the slots of a node by two indices, one of a property and one of
an element.  What it has before it is the rest of the slot it is at, followed by the slots
behind (`Cursor.rest`).  A move takes the first node of that and leaves the others, whatever
the indices are, so that from its start a cursor goes through the nodes in public slots, in
the order of the property table and of the lists.  Nothing is asked of the forest: there may
be more slots than properties or fewer, and the type of the node may be unknown.

## Main Definitions

* `Cursor.rest`: what a cursor has before it.
* `Cursor.Yields`: the nodes that moves come to until there are no more.
* `Forest.visible`: the public facets of a node.
* `Forest.Contains`: a public property of one node holds another.

## Main Results

* `Cursor.next_eq`: a move takes the first node of what is before the cursor.
* `Cursor.toList_eq`, `Cursor.yields_rest`: all moves together.
* `Forest.children_eq_shownIn`, `Forest.children_eq_flatMap`: the children of a node,
  property by property.
* `Forest.unfoldPostorder_congr`: of the cursors on its stack, a traversal only sees what
  is before them.
-/

namespace TypedForest

/-! ### What is before a cursor -/

/-- The nodes in public slots, property by property. -/
def Property.shownIn (properties : List Property) (slots : List Slot) : List NodeId :=
  (properties.zip slots).flatMap fun entry => if entry.1.isPublic then entry.2.owned else []

namespace Cursor

open Property

variable {c : Cursor}

/-- What a cursor has before it: the rest of its slot, and the slots behind. -/
def rest (c : Cursor) : List NodeId :=
  c.shown.drop c.element ++
    shownIn (c.properties.drop (c.property + 1)) (c.slots.drop (c.property + 1))

/-- From one property on: the nodes of its slot, and then those of the slots behind. -/
theorem shownIn_drop (c : Cursor) :
    shownIn (c.properties.drop c.property) (c.slots.drop c.property) =
      c.shown ++ shownIn (c.properties.drop (c.property + 1)) (c.slots.drop (c.property + 1)) := by
  obtain ⟨properties, slots, property, element⟩ := c
  unfold shown
  dsimp only
  cases hp : properties[property]? with
  | none =>
      have hend := List.getElem?_eq_none_iff.mp hp
      rw [List.drop_eq_nil_of_le hend, List.drop_eq_nil_of_le (Nat.le_succ_of_le hend)]
      simp [shownIn]
  | some p =>
      cases hs : slots[property]? with
      | none =>
          have hend := List.getElem?_eq_none_iff.mp hs
          rw [List.drop_eq_nil_of_le hend, List.drop_eq_nil_of_le (Nat.le_succ_of_le hend)]
          simp [shownIn]
      | some s =>
          obtain ⟨hplt, rfl⟩ := List.getElem?_eq_some_iff.mp hp
          obtain ⟨hslt, rfl⟩ := List.getElem?_eq_some_iff.mp hs
          rw [List.drop_eq_getElem_cons hplt, List.drop_eq_getElem_cons hslt]
          rfl

/-- A cursor at the end of its slot has the slots behind before it. -/
theorem rest_advance (h : c.shown[c.element]? = none) :
    { c with property := c.property + 1, element := 0 }.rest = c.rest := by
  have hend : c.shown.drop c.element = [] :=
    List.drop_eq_nil_of_le (List.getElem?_eq_none_iff.mp h)
  rw [rest, rest, hend, List.drop_zero, List.nil_append]
  exact (shownIn_drop { c with property := c.property + 1, element := 0 }).symm

/-- A cursor behind all slots has nothing before it. -/
theorem rest_of_length_le (h : c.slots.length ≤ c.property) : c.rest = [] := by
  have hshown : c.shown = [] := by simp [shown, List.getElem?_eq_none_iff.mpr h]
  rw [rest, hshown, List.drop_eq_nil_of_le (Nat.le_succ_of_le h)]
  simp [shownIn]

theorem rest_sublist (c : Cursor) : c.rest.Sublist (c.slots.flatMap Slot.owned) := by
  have hshownIn : ∀ properties slots,
      (shownIn properties slots).Sublist (slots.flatMap Slot.owned) := by
    intro properties slots
    induction properties generalizing slots with
    | nil => exact List.nil_sublist _
    | cons p properties ih =>
        cases slots with
        | nil => exact List.nil_sublist _
        | cons s slots =>
            refine List.Sublist.append ?_ (ih slots)
            dsimp only
            split
            case isTrue => exact .refl _
            case isFalse => exact List.nil_sublist _
  have hslots : ((c.slots.drop c.property).flatMap Slot.owned).Sublist
      (c.slots.flatMap Slot.owned) := (List.drop_sublist c.property c.slots).flatMap _
  refine List.Sublist.trans ?_ ((hshownIn (c.properties.drop c.property) _).trans hslots)
  rw [shownIn_drop]
  exact (List.drop_sublist c.element c.shown).append_right _

/-! ### Moving a cursor -/

/-- What the search for the next child finds, with room for all slots from the cursor
on. -/
theorem seek_eq (room : Nat) : ∀ {c : Cursor}, c.slots.length - c.property = room →
    (c.seek room).1 = c.rest.head? ∧ (c.seek room).2.rest = c.rest.tail := by
  induction room with
  | zero =>
      intro c hroom
      rw [seek, rest_of_length_le (Nat.le_of_sub_eq_zero hroom)]
      exact ⟨rfl, rfl⟩
  | succ room ih =>
      intro c hroom
      rw [seek]
      cases hchild : c.shown[c.element]? with
      | none =>
          rw [← rest_advance hchild]
          exact ih (by dsimp only; omega)
      | some child =>
          obtain ⟨hlt, rfl⟩ := List.getElem?_eq_some_iff.mp hchild
          rw [rest, List.drop_eq_getElem_cons hlt]
          exact ⟨rfl, rfl⟩

/-- **A move takes the first node of what is before the cursor and leaves the others.** -/
theorem next_eq (c : Cursor) : c.next.1 = c.rest.head? ∧ c.next.2.rest = c.rest.tail :=
  seek_eq _ rfl

theorem next_of_rest_nil (h : c.rest = []) : c.next.1 = none := by
  rw [c.next_eq.1, h]
  rfl

theorem exists_next_of_rest_cons {x : NodeId} {xs : List NodeId} (h : c.rest = x :: xs) :
    ∃ behind, c.next = (some x, behind) ∧ behind.rest = xs := by
  obtain ⟨hchild, hbehind⟩ := c.next_eq
  rw [h] at hchild hbehind
  exact ⟨c.next.2, Prod.ext hchild rfl, hbehind⟩

theorem collect_eq (room : Nat) (c : Cursor) : c.collect room = c.rest.take room := by
  induction room generalizing c with
  | zero => rfl
  | succ room ih =>
      rw [collect]
      cases hrest : c.rest with
      | nil =>
          split
          case h_1 => rfl
          case h_2 hnext => cases (next_of_rest_nil hrest).symm.trans (congrArg Prod.fst hnext)
      | cons x xs =>
          obtain ⟨behind, hnext, rfl⟩ := exists_next_of_rest_cons hrest
          rw [hnext]
          exact congrArg (x :: ·) (ih behind)

/-- **Moved as often as it can be, a cursor comes to all that is before it.** -/
theorem toList_eq (c : Cursor) : c.toList = c.rest := by
  rw [toList, collect_eq]
  exact List.take_of_length_le c.rest_sublist.length_le

/-- From a cursor on, moves come to these nodes, until there are no more. -/
inductive Yields : Cursor → List NodeId → Prop
  | done {c : Cursor} (h : c.next.1 = none) : Yields c []
  | move {c behind : Cursor} {x : NodeId} {xs : List NodeId} (h : c.next = (some x, behind))
      (hxs : Yields behind xs) : Yields c (x :: xs)

theorem yields_rest (c : Cursor) : c.Yields c.rest := by
  generalize hrest : c.rest = xs
  induction xs generalizing c with
  | nil => exact .done (next_of_rest_nil hrest)
  | cons x xs ih =>
      obtain ⟨behind, hnext, hxs⟩ := exists_next_of_rest_cons hrest
      exact .move hnext (ih behind hxs)

end Cursor

/-! ### Children -/

namespace Forest

open Property

variable {f g : Forest} {p c : NodeId}

theorem rest_cursor (f : Forest) (id : NodeId) : (f.cursor id).rest = f.children id :=
  (f.cursor id).toList_eq.symm

theorem publicFacets_of_get? {id : NodeId} {n : Node} {t : NodeType} (hn : f.get? id = some n)
    (ht : f.metamodel.type n.type = .ok t) :
    f.publicFacets id = .ok ((t.effective.zipWith Facet.mk n.slots).filter
      fun facet => facet.property.isPublic) := by
  rw [publicFacets, facets_of_get? hn ht, Except.map]

/-- The public facets of a node; a node that does not exist has none. -/
def visible (f : Forest) (node : NodeId) : List Facet :=
  ((f.publicFacets node).toOption).getD []

theorem visible_of_get? {id : NodeId} {n : Node} {t : NodeType} (hn : f.get? id = some n)
    (ht : f.metamodel.type n.type = .ok t) :
    f.visible id = (t.effective.zipWith Facet.mk n.slots).filter
      fun facet => facet.property.isPublic := by
  rw [visible, publicFacets_of_get? hn ht]
  rfl

/-- The table of properties and the slots, walked side by side, and the facets that they
make up. -/
theorem shownIn_eq_flatMap_facets (properties : List Property) (slots : List Slot) :
    shownIn properties slots = ((properties.zipWith Facet.mk slots).filter
      fun facet => facet.property.isPublic).flatMap fun facet => facet.slot.owned := by
  induction properties generalizing slots with
  | nil => rfl
  | cons p properties ih =>
      cases slots with
      | nil => rfl
      | cons s slots =>
          have hcons := ih slots
          unfold shownIn at hcons ⊢
          by_cases hpublic : p.isPublic
          · simp [hpublic, hcons]
          · simp [hpublic, hcons]

/-- **The children of a node, by the table of its type.** -/
theorem children_eq_shownIn {id : NodeId} {n : Node} {t : NodeType} (hn : f.get? id = some n)
    (ht : f.metamodel.type n.type = .ok t) : f.children id = shownIn t.effective n.slots := by
  have htype : f.metamodel.type? n.type = some t := Metamodel.type_eq_ok.mp ht
  have hcursor : f.cursor id = { properties := t.effective, slots := n.slots } := by
    simp [cursor, hn, htype]
  rw [← rest_cursor, hcursor]
  exact (Cursor.shownIn_drop { properties := t.effective, slots := n.slots }).symm

theorem children_of_get?_eq_none {id : NodeId} (h : f.get? id = none) : f.children id = [] := by
  simp [children, cursor, h, Cursor.toList, Cursor.collect]

/-- **The children of a node are what its visible facets own.** -/
theorem children_eq_flatMap (f : Forest) (id : NodeId) :
    f.children id = (f.visible id).flatMap fun facet => facet.slot.owned := by
  cases hn : f.get? id with
  | none =>
      have hvisible : f.visible id = [] := by
        simp [visible, publicFacets, facets, node, hn, bind, Except.bind, Except.map,
          Except.toOption]
      rw [children_of_get?_eq_none hn, hvisible]
      rfl
  | some n =>
      cases ht : f.metamodel.type? n.type with
      | none =>
          have htype : ∃ e, f.metamodel.type n.type = .error e := by simp [Metamodel.type, ht]
          obtain ⟨e, he⟩ := htype
          simp [children, cursor, hn, ht, Cursor.toList, Cursor.collect, visible, publicFacets,
            facets, node, he, bind, Except.bind, Except.map, Except.toOption]
      | some t =>
          have htype := Metamodel.type_eq_ok.mpr ht
          rw [children_eq_shownIn hn htype, shownIn_eq_flatMap_facets, visible_of_get? hn htype]

/-- What a visible facet owns is a child. -/
theorem mem_children_of_mem_owned {id : NodeId} {facet : Facet} (hfacet : facet ∈ f.visible id)
    (hc : c ∈ facet.slot.owned) : c ∈ f.children id := by
  rw [f.children_eq_flatMap]
  exact List.mem_flatMap.mpr ⟨facet, hfacet, hc⟩

/-- The children of a node, slot by slot. -/
theorem children_of_get? {id : NodeId} {n : Node} {t : NodeType} (hn : f.get? id = some n)
    (ht : f.metamodel.type n.type = .ok t) :
    f.children id = ((t.effective.zipWith Facet.mk n.slots).filter
      fun facet => facet.property.isPublic).flatMap fun facet => facet.slot.owned := by
  rw [children_eq_flatMap, visible_of_get? hn ht]

/-- Only a node of a known type has children. -/
theorem exists_type_of_mem_children (h : c ∈ f.children p) :
    ∃ n t, f.get? p = some n ∧ f.metamodel.type n.type = .ok t := by
  cases hn : f.get? p with
  | none =>
      rw [children_of_get?_eq_none hn] at h
      cases h
  | some n =>
      cases ht : f.metamodel.type? n.type with
      | some t => exact ⟨n, t, rfl, Metamodel.type_eq_ok.mpr ht⟩
      | none => simp [children, cursor, hn, ht, Cursor.toList, Cursor.collect] at h

/-- A public property of `p` holds `c`. -/
def Contains (f : Forest) (p c : NodeId) : Prop :=
  ∃ j property s, f.Holds p j property s c ∧ property.isPublic = true

/-- The children of a node are those that public properties hold. -/
theorem mem_children : c ∈ f.children p ↔ f.Contains p c := by
  constructor
  · intro h
    obtain ⟨n, t, hn, ht⟩ := exists_type_of_mem_children h
    rw [children_of_get? hn ht] at h
    obtain ⟨facet, hfacet, hc⟩ := List.mem_flatMap.mp h
    obtain ⟨hmem, hpublic⟩ := List.mem_filter.mp hfacet
    obtain ⟨j, hp, hs⟩ := mem_zipWith_facet.mp hmem
    exact ⟨j, facet.property, facet.slot, ⟨⟨n, t, hn, ht, hp, hs⟩, hc⟩, hpublic⟩
  · rintro ⟨j, property, s, ⟨⟨n, t, hn, ht, hp, hs⟩, hc⟩, hpublic⟩
    rw [children_of_get? hn ht, List.mem_flatMap]
    exact ⟨⟨property, s⟩,
      List.mem_filter.mpr ⟨mem_zipWith_facet.mpr ⟨j, hp, hs⟩, hpublic⟩, hc⟩

/-! ### Traversals see the nodes before their cursors -/

/-- One step of the traversal from the leaves up leaves a node with nothing before its
cursor. -/
theorem unfoldPostorder_leave {cursor : Cursor} {id : NodeId} (h : cursor.rest = [])
    (budget : Nat) (stack : List (NodeId × Cursor)) :
    f.unfoldPostorder (budget + 1) ((id, cursor) :: stack) =
      id :: f.unfoldPostorder budget stack := by
  rw [unfoldPostorder]
  split
  case h_1 hnext => cases (Cursor.next_of_rest_nil h).symm.trans (congrArg Prod.fst hnext)
  case h_2 => rfl

/-- Otherwise it enters the first node there. -/
theorem exists_unfoldPostorder_enter {cursor : Cursor} {x : NodeId} {xs : List NodeId}
    (h : cursor.rest = x :: xs) :
    ∃ behind, cursor.next = (some x, behind) ∧ behind.rest = xs ∧
      ∀ (f : Forest) (budget : Nat) (id : NodeId) (stack : List (NodeId × Cursor)),
        f.unfoldPostorder (budget + 1) ((id, cursor) :: stack) =
          f.unfoldPostorder budget ((x, f.cursor x) :: (id, behind) :: stack) := by
  obtain ⟨behind, hnext, hxs⟩ := Cursor.exists_next_of_rest_cons h
  refine ⟨behind, hnext, hxs, fun f budget id stack => ?_⟩
  rw [unfoldPostorder, hnext]

/-- Frames of the same node, with the same nodes before their cursors. -/
def SameFrame (a b : NodeId × Cursor) : Prop := a.1 = b.1 ∧ a.2.rest = b.2.rest

/-- **Of the cursors on its stack, a traversal only sees what is before them.** -/
theorem unfoldPostorder_congr (hchildren : ∀ id, g.children id = f.children id) (budget : Nat)
    {stack stack' : List (NodeId × Cursor)} (h : List.Forall₂ SameFrame stack stack') :
    g.unfoldPostorder budget stack' = f.unfoldPostorder budget stack := by
  induction budget generalizing stack stack' with
  | zero => rfl
  | succ budget ih =>
      cases h with
      | nil => rfl
      | @cons frame frame' stack stack' hframe hstack =>
          obtain ⟨id, cursor⟩ := frame
          obtain ⟨id', cursor'⟩ := frame'
          obtain ⟨rfl, hrest⟩ : id = id' ∧ cursor.rest = cursor'.rest := hframe
          cases hcursor : cursor.rest with
          | nil =>
              rw [unfoldPostorder_leave hcursor, unfoldPostorder_leave (hrest ▸ hcursor),
                ih hstack]
          | cons x xs =>
              obtain ⟨behind, -, hxs, hstep⟩ := exists_unfoldPostorder_enter hcursor
              obtain ⟨behind', -, hxs', hstep'⟩ := exists_unfoldPostorder_enter (hrest ▸ hcursor)
              rw [hstep, hstep']
              refine ih (.cons ⟨rfl, ?_⟩ (.cons ⟨rfl, hxs.trans hxs'.symm⟩ hstack))
              rw [rest_cursor, rest_cursor, hchildren]

end Forest

end TypedForest
