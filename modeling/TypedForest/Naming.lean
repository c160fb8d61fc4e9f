import TypedForest.Dictionary
import TypedForest.Forest.Containment

/-!
# Identifiers

Nodes are numbered within one forest only.  To name them elsewhere, identifiers
are assigned along a traversal: a namer is asked for the identifier of each node
that has none yet, and no two nodes may get the same one.

## Main Definitions

* `Namer`: a source of identifiers, with a state of its own.
* `Namer.sequential`, `Namer.structural`: by counting, and by path.
* `Naming`: nodes and their identifiers, with look-ups both ways and the order of
  assignment.
* `Naming.insert`: a further node with its identifier.
* `Forest.assignIds`: assignment along a list of nodes.

## Design Notes

The state of a namer outlives an assignment that fails, so that an identifier
handed out once is not handed out again by a counter.
-/

namespace TypedForest

/-- A source of identifiers.  It may decline to name a node. -/
structure Namer (σ : Type) where
  next : Forest → NodeId → σ → Option String × σ

/-- Nodes and their identifiers. -/
structure Naming where
  /-- The identifiers of nodes. -/
  ids : Dictionary NodeId String := .empty
  /-- The nodes of identifiers. -/
  nodes : Dictionary String NodeId := .empty
  /-- The nodes, in the order of assignment. -/
  order : List NodeId := []
deriving DecidableEq, Repr

namespace Naming

/-- The number of nodes that have an identifier. -/
def size (m : Naming) : Nat := m.order.length

/-- The identifier of a node. -/
def get? (m : Naming) (node : NodeId) : Option String := m.ids.get? node

/-- Does the node have an identifier? -/
def contains (m : Naming) (node : NodeId) : Bool := m.ids.contains node

/-- The node of an identifier. -/
def node? (m : Naming) (id : String) : Option NodeId := m.nodes.get? id

/-- The nodes with their identifiers, in the order of assignment. -/
def entries (m : Naming) : List (NodeId × String) :=
  m.order.filterMap fun node => (m.ids.get? node).map fun id => (node, id)

/-- Write down a node and its identifier, in each part in turn. -/
def enter (m : Naming) (node : NodeId) (id : String) : Naming :=
  let m := { m with nodes := m.nodes.insert id node }
  let m := { m with ids := m.ids.insert node id }
  { m with order := m.order ++ [node] }

/-- Give a node an identifier, which must not be in use. -/
def insert (f : Forest) (m : Naming) (node : NodeId) (id : String) : Except Error Naming :=
  if m.nodes.contains id then .error (.repeatedId id (f.label node))
  else .ok (m.enter node id)

end Naming

/-! ### Namers -/

namespace Namer

/-- Count upwards in 64 bits; the state is the next number. -/
def sequential : Namer Nat where
  next _ _ n := (some (toString n), (n + 1) % UInt64.size)

/-- The characters that may occur in identifiers. -/
def isIdChar (c : Char) : Bool := c.isAlphanum || c == '_' || c == '-'

/-- A text with an underscore for each character that identifiers may not hold. -/
def safeText (s : String) : String :=
  String.ofList (s.toList.map fun c => if isIdChar c then c else '_')

/-- The namespace of identifiers when none is given. -/
def defaultNamespace : String := "UNKNOWN_SOURCE"

/-- Name nodes by a namespace and their path; there is no state. -/
def structural (space : String) : Namer Unit where
  next f node _ :=
    ((f.get? node).map fun _ => s!"{safeText space}-{(f.path node).identifier}", ())

end Namer

/-! ### Assignment -/

namespace Forest

/-- Give a node an identifier unless it has one. -/
def assignId {σ : Type} (f : Forest) (namer : Namer σ) (m : Naming)
    (node : NodeId) : EStateM Error σ Naming :=
  if m.contains node then pure m
  else do
    match ← modifyGet (namer.next f node) with
    | none => pure m
    | some id =>
        match m.insert f node id with
        | .error e => throw e
        | .ok m => pure m

/-- Give identifiers to the nodes of a list, in order.  The nodes below `root`
must form a tree. -/
def assignIds {σ : Type} (f : Forest) (root : NodeId) (nodes : List NodeId)
    (namer : Namer σ) : EStateM Error σ Naming := fun state =>
  match f.checkTree root with
  | .error e => .error e state
  | .ok _ => nodes.foldlM (f.assignId namer) {} state

end Forest

end TypedForest
