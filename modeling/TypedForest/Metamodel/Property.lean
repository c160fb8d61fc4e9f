import TypedForest.Value

/-!
# Properties

A node type is described by the properties of its nodes.  A property holds an
attribute value, owns one child or a list of children, or refers to a node by
name.

## Main Definitions

* `Kind`: the four shapes of a property.
* `Property`: a named facet of a node type.
* `Property.isPublic`: whether walking, comparing and exporting see it.

## Design Notes

The types that restrict a property (`dataType`, `childType`, `targetType`) are
independent of its kind.  Each is consulted by the operations of its own kind
only; an absent one restricts nothing.
-/

namespace TypedForest

/-- The shape of a property. -/
inductive Kind where
  /-- An attribute: a value. -/
  | value
  /-- At most one owned child. -/
  | single
  /-- A list of owned children. -/
  | multiple
  /-- A named reference to a node. -/
  | reference
deriving DecidableEq, Repr

namespace Kind

/-- All kinds, in order. -/
def all : List Kind := [value, single, multiple, reference]

/-- The name of a kind in messages. -/
def text : Kind → String
  | value => "ATTRIBUTE"
  | single => "CONTAINMENT-SINGLE"
  | multiple => "CONTAINMENT-MULTIPLE"
  | reference => "REFERENCE-SINGLE"

/-- Do properties of this kind own nodes? -/
def isContainment : Kind → Bool
  | single => true
  | multiple => true
  | _ => false

end Kind

/-- Who may see a property. -/
inductive Visibility where
  | shown
  | hidden
deriving DecidableEq, Repr

/-- A named facet of a node type. -/
structure Property where
  name : String
  kind : Kind
  /-- Is the property computed from others? -/
  derived : Bool := false
  visibility : Visibility := .shown
  /-- The values that an attribute takes. -/
  dataType : Option DataType := none
  /-- The type of the nodes that a containment owns. -/
  childType : Option String := none
  /-- The type of the nodes that a reference names. -/
  targetType : Option String := none
  /-- The node type that declares the property, known once it is registered. -/
  declaredBy : String := ""
deriving DecidableEq, Repr

namespace Property

/-- Hidden and derived properties take no part in walking, comparing and
exporting. -/
def isPublic (p : Property) : Bool := p.visibility == .shown && !p.derived

/-- The values that an attribute takes; undeclared ones take all. -/
def valueType (p : Property) : DataType := p.dataType.getD .raw

end Property

end TypedForest
