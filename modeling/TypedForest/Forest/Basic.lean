import TypedForest.Forest.Path
import TypedForest.Metamodel.Register

/-!
# Forests

A forest is a list of nodes over one metamodel.  Each node belongs to one tree
of the forest; a node without a parent is the root of its tree.

## Main Definitions

* `Forest`: the metamodel and the nodes.
* `Forest.get?`, `Forest.node`: the node of a number.
* `Forest.facets`, `Forest.publicFacets`: the properties of a node with their
  contents.
* `Forest.locate`: a property of a given name and kind.
* `Forest.holder?`: the step from a node's parent to the node.
* `Forest.ancestors`, `Forest.path`: the way up and the way down.
* `Forest.label`: the name of a node in messages.

## Design Notes

The type `Forest` does not ask for parents and slots to agree; the operations in
`TypedForest.Forest.Edit` keep them in agreement.  What is defined here is
meaningful without that, and in particular `Forest.ancestors` comes to an end
even if parents run in a circle: it allows for one step more than there are
nodes and stops at a node it has met before.
-/

namespace TypedForest

/-- Nodes over a metamodel, numbered by their place in the list. -/
structure Forest where
  metamodel : Metamodel
  nodes : List Node := []
deriving DecidableEq, Repr

/-- A property of a node with its content. -/
structure Facet where
  property : Property
  slot : Slot
deriving DecidableEq, Repr

/-- A property of a node's type and its place among the effective properties. -/
structure Site where
  index : Nat
  property : Property
deriving DecidableEq, Repr

namespace Node

/-- The content of the slot at a site.  The slot of a node that fits its type is
always there. -/
def slotAt (n : Node) (site : Site) : Slot :=
  (n.slots[site.index]?).getD (Slot.empty site.property.kind)

end Node

namespace Forest

/-- The number of nodes. -/
def size (f : Forest) : Nat := f.nodes.length

/-- The node of a given number. -/
def get? (f : Forest) (id : NodeId) : Option Node := f.nodes[id.index]?

/-- The node of a given number, which must exist. -/
def node (f : Forest) (id : NodeId) : Except Error Node :=
  match f.get? id with
  | some n => .ok n
  | none => .error (.unknownNode id)

/-- The parent of a node. -/
def parent? (f : Forest) (id : NodeId) : Option NodeId := (f.get? id).bind Node.parent

/-! ### Properties of nodes -/

/-- The properties of a node with their contents, in the order of its type. -/
def facets (f : Forest) (id : NodeId) : Except Error (List Facet) := do
  let n ← f.node id
  let t ← f.metamodel.type n.type
  return t.effective.zipWith Facet.mk n.slots

/-- The properties that walking, comparing and exporting see. -/
def publicFacets (f : Forest) (id : NodeId) : Except Error (List Facet) :=
  (f.facets id).map fun facets => facets.filter fun facet => facet.property.isPublic

/-- The public property of a given name. -/
def facet? (f : Forest) (id : NodeId) (name : String) : Except Error (Option Facet) :=
  (f.publicFacets id).map fun facets => facets.find? fun facet => facet.property.name == name

/-- The site of a property of a given name and kind, public or not. -/
def locate (f : Forest) (id : NodeId) (name : String) (kind : Kind) : Except Error Site := do
  let n ← f.node id
  let t ← f.metamodel.type n.type
  match t.effective.zipIdx.find? fun entry => entry.1.name == name with
  | none => .error (.unknownProperty n.type name)
  | some (p, index) =>
      if p.kind = kind then .ok ⟨index, p⟩
      else .error (.incompatible name (.kind kind p.kind))

/-- The content of a property of a given name and kind. -/
def slot (f : Forest) (id : NodeId) (name : String) (kind : Kind) : Except Error Slot := do
  let site ← f.locate id name kind
  let n ← f.node id
  return n.slotAt site

/-- The value of an attribute, public or not. -/
def value (f : Forest) (id : NodeId) (name : String) : Except Error Value := do
  match ← f.slot id name .value with
  | .value v => .ok v
  | other => .error (.incompatible name (.kind .value other.kind))

/-- The reference held by a property, public or not. -/
def reference (f : Forest) (id : NodeId) (name : String) : Except Error (Option NamedRef) := do
  match ← f.slot id name .reference with
  | .reference r => .ok r
  | _ => .ok none

/-! ### Places in a tree -/

/-- The step that a slot makes to a node, if the slot owns it. -/
def stepIn (id : NodeId) (facet : Facet) : Option Path.Step :=
  match facet.slot with
  | .child (some c) => if c = id then some ⟨facet.property.name, none⟩ else none
  | .children (some cs) =>
      (cs.findIdx? fun c => c == id).map fun i => ⟨facet.property.name, some i⟩
  | _ => none

/-- The step from the parent of a node to the node.  Hidden and derived
properties are searched as well. -/
def holder? (f : Forest) (id : NodeId) : Option Path.Step := do
  let parent ← f.parent? id
  let facets ← (f.facets parent).toOption
  facets.findSome? (stepIn id)

/-- Follow parents upwards from `current`, adding them to those already met.
There is room for a limited number of steps. -/
def climb (f : Forest) : Nat → List NodeId → Option NodeId → List NodeId
  | 0, met, _ => met
  | _ + 1, met, none => met
  | room + 1, met, some p =>
      if p ∈ met then met else climb f room (met ++ [p]) (f.parent? p)

/-- The nodes above a node, from its parent up to the root. -/
def ancestors (f : Forest) (id : NodeId) : List NodeId :=
  f.climb (f.size + 1) [] (f.parent? id)

/-- The steps that lead up from a node along its ancestors, as far as each is
held by the next. -/
def ascent (f : Forest) : NodeId → List NodeId → List Path.Step
  | _, [] => []
  | current, ancestor :: above =>
      match f.holder? current with
      | none => []
      | some step => step :: ascent f ancestor above

/-- The path from the root of its tree to a node. -/
def path (f : Forest) (id : NodeId) : Path := (f.ascent id (f.ancestors id)).reverse

/-- The readable path of a node. -/
def pathText (f : Forest) (id : NodeId) : String := (f.path id).text "root"

/-- The name of a node in messages: its type and its path. -/
def label (f : Forest) (id : NodeId) : String :=
  match f.get? id with
  | some n => s!"{n.type}@{f.pathText id}"
  | none => s!"<missing {id.text}>"

end Forest

end TypedForest
