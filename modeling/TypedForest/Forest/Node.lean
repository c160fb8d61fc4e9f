import TypedForest.Metamodel.Property
import TypedForest.Position

/-!
# Nodes

A node has a type, one slot for each effective property of that type, and a link
to the node that owns it.

## Main Definitions

* `NodeId`: the number of a node in its forest.
* `NamedRef`: a reference by name, resolved to a node or not.
* `Slot`: the content of a property.
* `Node`: a node.

## Design Notes

Nodes are named by number, so owning a node and referring to it are plain data
and a reference never makes its target part of the tree.  A list of children
can be absent (`children none`), and it can be marked as one that comparisons
skip (`ignored`).
-/

namespace TypedForest

/-- The number of a node in its forest. -/
structure NodeId where
  index : Nat
deriving DecidableEq, Repr

namespace NodeId

/-- The name of a node in messages. -/
def text (id : NodeId) : String := s!"#{id.index}"

/-- The detailed form of a node number. -/
def inspect (id : NodeId) : String := s!"NodeId({id.index})"

end NodeId

/-- A reference to a node by name. -/
structure NamedRef where
  name : String
  /-- The node that the name was resolved to. -/
  target : Option NodeId := none
deriving DecidableEq, Repr

namespace NamedRef

/-- Has the name been resolved? -/
def isResolved (r : NamedRef) : Bool := r.target.isSome

/-- Agreement of references: equal names, and equal targets where both are
resolved. -/
def agrees (r s : NamedRef) : Bool :=
  r.name == s.name &&
    match r.target, s.target with
    | some a, some b => a == b
    | _, _ => true

end NamedRef

/-- The content of a property. -/
inductive Slot where
  /-- The value of an attribute. -/
  | value (v : Value)
  /-- The node owned by a single containment. -/
  | child (c : Option NodeId)
  /-- The nodes owned by a multiple containment; the list may be absent. -/
  | children (cs : Option (List NodeId))
  /-- A multiple containment that comparisons skip. -/
  | ignored
  /-- A reference. -/
  | reference (r : Option NamedRef)
deriving DecidableEq, Repr

namespace Slot

/-- The content of a property of a new node. -/
def empty : Kind → Slot
  | .value => value .null
  | .single => child none
  | .multiple => children (some [])
  | .reference => reference none

/-- The kind of property that a slot belongs to. -/
def kind : Slot → Kind
  | value _ => .value
  | child _ => .single
  | children _ => .multiple
  | ignored => .multiple
  | reference _ => .reference

/-- The nodes that a slot owns, in order. -/
def owned : Slot → List NodeId
  | child (some c) => [c]
  | children (some cs) => cs
  | _ => []

@[simp] theorem kind_empty (k : Kind) : (empty k).kind = k := by
  cases k <;> rfl

@[simp] theorem owned_empty (k : Kind) : (empty k).owned = [] := by
  cases k <;> rfl

/-- The node in a single containment. -/
def single? : Slot → Option NodeId
  | child c => c
  | _ => none

/-- The list in a multiple containment; an absent or ignored one counts as
empty. -/
def listed : Slot → List NodeId
  | children (some cs) => cs
  | _ => []

end Slot

/-- A node of a forest. -/
structure Node where
  id : NodeId
  type : String
  position : Option Position := none
  /-- The node that owns this one. -/
  parent : Option NodeId := none
  /-- The slots, one for each effective property of the type. -/
  slots : List Slot
deriving DecidableEq, Repr

namespace Node

/-- Is the node owned by no other? -/
def isRoot (n : Node) : Bool := n.parent.isNone

end Node

end TypedForest
