import TypedForest.Codec.Value
import TypedForest.Metamodel.Basic
import TypedForest.Schema.Basic

/-!
# Node types and pointers in JSON

## Main Definitions

* `Property.toJson`, `Property.ofJson?`
* `NodeType.toJson`, `NodeType.ofJson?`
* `Pointer.toJson`, `Pointer.ofJson?`
-/

namespace TypedForest

namespace Kind

/-- A kind in JSON. -/
def toJson : Kind → Json
  | value => .text "Attribute"
  | single => .text "ContainmentSingle"
  | multiple => .text "ContainmentMultiple"
  | reference => .text "ReferenceSingle"

/-- Read a kind. -/
def ofJson? (j : Json) : Option Kind :=
  match j.unit? with
  | some "Attribute" => some value
  | some "ContainmentSingle" => some single
  | some "ContainmentMultiple" => some multiple
  | some "ReferenceSingle" => some reference
  | _ => none

end Kind

namespace Visibility

/-- A visibility in JSON. -/
def toJson : Visibility → Json
  | shown => .text "Public"
  | hidden => .text "Private"

/-- Read a visibility. -/
def ofJson? (j : Json) : Option Visibility :=
  match j.unit? with
  | some "Public" => some shown
  | some "Private" => some hidden
  | _ => none

end Visibility

namespace Property

/-- A property in JSON. -/
def toJson (p : Property) : Json :=
  .record [("name", .text p.name), ("kind", p.kind.toJson), ("derived", .bool p.derived),
    ("visibility", p.visibility.toJson), ("data_type", .option DataType.toJson p.dataType),
    ("child_type", .option .text p.childType), ("target_type", .option .text p.targetType),
    ("declared_by", .text p.declaredBy)]

/-- Read a property. -/
def ofJson? (j : Json) : Option Property := do
  let [name, kind, derived, visibility, dataType, childType, targetType, declaredBy] ←
    j.record? ["name", "kind", "derived", "visibility", "data_type", "child_type",
      "target_type", "declared_by"] | none
  return {
    name := ← Json.required Json.text? name
    kind := ← Json.required Kind.ofJson? kind
    derived := ← Json.required Json.bool? derived
    visibility := ← Json.required Visibility.ofJson? visibility
    dataType := ← Json.optional DataType.ofJson? dataType
    childType := ← Json.optional Json.text? childType
    targetType := ← Json.optional Json.text? targetType
    declaredBy := ← Json.required Json.text? declaredBy }

end Property

namespace NodeType

/-- A node type in JSON. -/
def toJson (t : NodeType) : Json :=
  .record [("name", .text t.name), ("supertypes", .list .text t.supertypes),
    ("is_abstract", .bool t.isAbstract), ("declared", .list Property.toJson t.declared),
    ("effective", .list Property.toJson t.effective)]

/-- Read a node type. -/
def ofJson? (j : Json) : Option NodeType := do
  let [name, supertypes, isAbstract, declared, effective] ←
    j.record? ["name", "supertypes", "is_abstract", "declared", "effective"] | none
  return {
    name := ← Json.required Json.text? name
    supertypes := ← Json.required (Json.list? Json.text?) supertypes
    isAbstract := ← Json.required Json.bool? isAbstract
    declared := ← Json.required (Json.list? Property.ofJson?) declared
    effective := ← Json.required (Json.list? Property.ofJson?) effective }

end NodeType

namespace Pointer

/-- A pointer in JSON. -/
def toJson (p : Pointer) : Json :=
  .record [("language", .option .text p.language), ("version", .option .text p.version),
    ("key", .option .text p.key)]

/-- Read a pointer. -/
def ofJson? (j : Json) : Option Pointer := do
  let [language, version, key] ← j.record? ["language", "version", "key"] | none
  return {
    language := ← Json.optional Json.text? language
    version := ← Json.optional Json.text? version
    key := ← Json.optional Json.text? key }

end Pointer

end TypedForest
