import TypedForest.Forest.Basic

/-!
# Traversals

A traversal lists the nodes of a tree.  Only public properties are followed, in
the order of the property tables, and lists of children in their own order.

## Main Definitions

* `Cursor`: a place in the slots of a node, and `Cursor.next`: the next child.
* `Forest.children`: the nodes directly below a node.
* `Forest.preorder`: every node before the nodes below it.
* `Forest.postorder`: every node after the nodes below it.

## Design Notes

Both traversals keep a stack: the one from the root down of nodes, the other of
cursors that have been moved some way.  They are bounded by the size of the
forest: the nodes of a tree are distinct, so a traversal of a tree visits no more
nodes than there are.
-/

namespace TypedForest

/-- The order in which the nodes of a tree are listed. -/
inductive Traversal where
  /-- From the root down. -/
  | preorder
  /-- From the leaves up. -/
  | postorder
deriving DecidableEq, Repr

/-- Traversals go from the root down unless told otherwise. -/
instance : Inhabited Traversal := ⟨.preorder⟩

/-- A place in the slots of a node: a property, and an element of what its slot
owns. -/
structure Cursor where
  properties : List Property := []
  slots : List Slot := []
  property : Nat := 0
  element : Nat := 0
deriving DecidableEq, Repr

namespace Cursor

/-- The nodes in the slot at the cursor.  Only the slot of a public property shows
any. -/
def shown (c : Cursor) : List NodeId :=
  if (c.properties[c.property]?).any Property.isPublic then
    ((c.slots[c.property]?).map Slot.owned).getD []
  else []

/-- The first child from the cursor on, in a number of slots, and the cursor behind
it. -/
def seek : Nat → Cursor → Option NodeId × Cursor
  | 0, c => (none, c)
  | room + 1, c =>
      match c.shown[c.element]? with
      | some child => (some child, { c with element := c.element + 1 })
      | none => seek room { c with property := c.property + 1, element := 0 }

/-- The next child, and the cursor behind it. -/
def next (c : Cursor) : Option NodeId × Cursor := c.seek (c.slots.length - c.property)

/-- The children from the cursor on, up to a number of them. -/
def collect : Nat → Cursor → List NodeId
  | 0, _ => []
  | room + 1, c =>
      match c.next with
      | (none, _) => []
      | (some child, behind) => child :: collect room behind

/-- All children from the cursor on. -/
def toList (c : Cursor) : List NodeId := c.collect (c.slots.flatMap Slot.owned).length

end Cursor

namespace Forest

/-- A cursor before the children of a node. -/
def cursor (f : Forest) (id : NodeId) : Cursor :=
  match f.get? id with
  | none => {}
  | some n =>
      match f.metamodel.type? n.type with
      | none => {}
      | some t => { properties := t.effective, slots := n.slots }

/-- The nodes directly below a node. -/
def children (f : Forest) (id : NodeId) : List NodeId := (f.cursor id).toList

/-- Take nodes from the top of a stack, each replaced by its children. -/
def unfoldPreorder (f : Forest) : Nat → List NodeId → List NodeId
  | 0, _ => []
  | _ + 1, [] => []
  | budget + 1, id :: stack => id :: unfoldPreorder f budget (f.children id ++ stack)

/-- The tree below a node, root first. -/
def preorder (f : Forest) (root : NodeId) : List NodeId :=
  if (f.get? root).isSome then f.unfoldPreorder f.size [root] else []

/-- Move the cursor on the top of a stack and descend into the child that it comes
to; a node without any more is listed. -/
def unfoldPostorder (f : Forest) : Nat → List (NodeId × Cursor) → List NodeId
  | 0, _ => []
  | _ + 1, [] => []
  | budget + 1, (id, cursor) :: stack =>
      match cursor.next with
      | (some c, behind) => unfoldPostorder f budget ((c, f.cursor c) :: (id, behind) :: stack)
      | (none, _) => id :: unfoldPostorder f budget stack

/-- The tree below a node, root last.  Every node is entered and left once. -/
def postorder (f : Forest) (root : NodeId) : List NodeId :=
  if (f.get? root).isSome then f.unfoldPostorder (2 * f.size) [(root, f.cursor root)]
  else []

/-- The tree below a node, in a given order. -/
def traverse (f : Forest) (order : Traversal) (root : NodeId) : List NodeId :=
  match order with
  | .preorder => f.preorder root
  | .postorder => f.postorder root

end Forest

end TypedForest
