import TypedForest.Dictionary
import TypedForest.Metamodel.Property

/-!
# Metamodels

A metamodel holds node types and enumerations, which are registered one at a
time.  Registration computes the *effective* properties of a type:
those of its supertypes, in order, followed by those it declares.

## Main Definitions

* `NodeType`: a registered node type with its effective properties.
* `Metamodel`: node types and enumerations by name, and the order of registration.
* `Metamodel.type?`, `Metamodel.literals?`: look-ups by name.
* `Metamodel.types`: the node types, in the order of registration.
* `Metamodel.lineage`, `Metamodel.assignable`: subtyping.

## Design Notes

A supertype has to be registered before its subtypes.  One pass over the types,
latest first, therefore meets every type before the types above it and collects
the whole lineage of a type; each type brings in its supertypes once, however
many ways lead to it.
-/

namespace TypedForest

/-- The description of a node type, as given for registration. -/
structure TypeDeclaration where
  name : String
  supertypes : List String := []
  isAbstract : Bool := false
  properties : List Property := []
deriving DecidableEq, Repr

/-- A registered node type. -/
structure NodeType where
  name : String
  supertypes : List String
  isAbstract : Bool
  /-- The properties that the type itself declares. -/
  declared : List Property
  /-- The properties of its nodes: inherited ones, then declared ones. -/
  effective : List Property
deriving DecidableEq, Repr

namespace NodeType

/-- The place of a property in the table of effective properties. -/
def index? (t : NodeType) (property : String) : Option Nat :=
  t.effective.findIdx? fun p => p.name == property

/-- The effective property of a given name. -/
def property? (t : NodeType) (property : String) : Option Property :=
  t.effective.find? fun p => p.name == property

end NodeType

/-- Node types and enumerations. -/
structure Metamodel where
  name : String
  /-- The node types, by their names. -/
  table : Dictionary String NodeType := .empty
  /-- The names of the node types, in the order of registration. -/
  order : List String := []
  /-- The literals of the enumerations, by their names. -/
  enumerations : Dictionary String (List String) := .empty
deriving DecidableEq, Repr

namespace Metamodel

/-- The node type of a given name. -/
def type? (m : Metamodel) (name : String) : Option NodeType := m.table.get? name

/-- The node types, in the order of registration. -/
def types (m : Metamodel) : List NodeType := m.order.filterMap m.table.get?

/-- The literals of the enumeration of a given name. -/
def literals? (m : Metamodel) (name : String) : Option (List String) :=
  m.enumerations.get? name

/-- The names of the types above a type, itself included: going from the latest
type to the oldest, a type that has been reached brings in its supertypes. -/
def lineage (m : Metamodel) (sub : String) : List String :=
  m.types.foldr (fun t reached =>
    if reached.contains t.name then t.supertypes ++ reached else reached) [sub]

/-- A type belongs to its own lineage. -/
theorem mem_lineage_self (m : Metamodel) (sub : String) : sub ∈ m.lineage sub := by
  unfold lineage
  induction m.types with
  | nil => simp
  | cons t types ih =>
      simp only [List.foldr_cons]
      split
      · exact List.mem_append_right _ ih
      · exact ih

/-- May a node of type `sub` stand where a node of type `super` is expected? -/
def assignable (m : Metamodel) (sub super : String) : Bool :=
  (m.lineage sub).contains super

@[simp] theorem assignable_self (m : Metamodel) (type : String) :
    m.assignable type type = true := by
  simp [assignable, mem_lineage_self]

end Metamodel

end TypedForest
