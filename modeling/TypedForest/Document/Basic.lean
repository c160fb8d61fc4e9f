import TypedForest.Schema.Basic

/-!
# Documents

A document is a tree written as a flat list of records, one for each node.  A
record names its type and properties by pointers and other nodes by identifiers,
so a document can be read without the forest it comes from.

## Main Definitions

* `Document`, `Document.Record`: the list of records and the records.
* `Document.record?`: the record of an identifier.
* `Document.Record.value?`, `Document.Record.children?`,
  `Document.Record.targets?`: features by key.
-/

namespace TypedForest

/-- A language that a document uses. -/
structure Document.LanguageUse where
  version : String
  key : String
deriving DecidableEq, Repr

/-- An attribute and the wire form of its value. -/
structure Document.PropertyEntry where
  property : Pointer
  value : Option String
deriving DecidableEq, Repr

/-- A containment and the identifiers of the children. -/
structure Document.ContainmentEntry where
  containment : Pointer
  children : List String
deriving DecidableEq, Repr

/-- The name and the identifier that a reference leads to. -/
structure Document.Target where
  info : Option String
  id : Option String
deriving DecidableEq, Repr

/-- A reference property and its targets. -/
structure Document.ReferenceEntry where
  reference : Pointer
  targets : List Document.Target
deriving DecidableEq, Repr

/-- The record of a node. -/
structure Document.Record where
  id : String
  concept : Pointer
  properties : List Document.PropertyEntry := []
  children : List Document.ContainmentEntry := []
  references : List Document.ReferenceEntry := []
  parent : Option String := none
deriving DecidableEq, Repr

/-- The only version of the format. -/
def Document.formatVersion : String := "1"

/-- A tree as a list of records. -/
structure Document where
  version : String := Document.formatVersion
  languages : List Document.LanguageUse := []
  records : List Document.Record := []
deriving DecidableEq, Repr

namespace Document

/-- The first record of an identifier. -/
def record? (d : Document) (id : String) : Option Record :=
  d.records.find? fun r => r.id == id

namespace Record

/-- The value of the first property with a key. -/
def value? (r : Record) (key : String) : Option String :=
  (r.properties.find? fun p => p.property.key == some key).bind PropertyEntry.value

/-- The children of the first containment with a key. -/
def children? (r : Record) (key : String) : Option (List String) :=
  (r.children.find? fun c => c.containment.key == some key).map ContainmentEntry.children

/-- The targets of the first reference with a key. -/
def targets? (r : Record) (key : String) : Option (List Target) :=
  (r.references.find? fun e => e.reference.key == some key).map ReferenceEntry.targets

end Record

end Document

end TypedForest
