import TypedForest.Codec.Metamodel
import TypedForest.Document.Basic

/-!
# Documents in JSON

The order of the fields is part of the format.

## Main Definitions

* `Document.toJson`, `Document.ofJson?`
* `Document.write`, `Document.read?`: the text of a document and its reader.
-/

namespace TypedForest.Document

namespace LanguageUse

/-- A used language in JSON. -/
def toJson (l : LanguageUse) : Json :=
  .record [("version", .text l.version), ("key", .text l.key)]

/-- Read a used language. -/
def ofJson? (j : Json) : Option LanguageUse := do
  let [version, key] ← j.record? ["version", "key"] | none
  return {
    version := ← Json.required Json.text? version
    key := ← Json.required Json.text? key }

end LanguageUse

namespace PropertyEntry

/-- A property entry in JSON. -/
def toJson (e : PropertyEntry) : Json :=
  .record [("property", e.property.toJson), ("value", .option .text e.value)]

/-- Read a property entry. -/
def ofJson? (j : Json) : Option PropertyEntry := do
  let [property, value] ← j.record? ["property", "value"] | none
  return {
    property := ← Json.required Pointer.ofJson? property
    value := ← Json.optional Json.text? value }

end PropertyEntry

namespace ContainmentEntry

/-- A containment entry in JSON. -/
def toJson (e : ContainmentEntry) : Json :=
  .record [("containment", e.containment.toJson), ("children", .list .text e.children)]

/-- Read a containment entry. -/
def ofJson? (j : Json) : Option ContainmentEntry := do
  let [containment, children] ← j.record? ["containment", "children"] | none
  return {
    containment := ← Json.required Pointer.ofJson? containment
    children := ← Json.required (Json.list? Json.text?) children }

end ContainmentEntry

namespace Target

/-- A target in JSON. -/
def toJson (t : Target) : Json :=
  .record [("resolveInfo", .option .text t.info), ("reference", .option .text t.id)]

/-- Read a target. -/
def ofJson? (j : Json) : Option Target := do
  let [info, id] ← j.record? ["resolveInfo", "reference"] | none
  return {
    info := ← Json.optional Json.text? info
    id := ← Json.optional Json.text? id }

end Target

namespace ReferenceEntry

/-- A reference entry in JSON. -/
def toJson (e : ReferenceEntry) : Json :=
  .record [("reference", e.reference.toJson), ("targets", .list Target.toJson e.targets)]

/-- Read a reference entry. -/
def ofJson? (j : Json) : Option ReferenceEntry := do
  let [reference, targets] ← j.record? ["reference", "targets"] | none
  return {
    reference := ← Json.required Pointer.ofJson? reference
    targets := ← Json.required (Json.list? Target.ofJson?) targets }

end ReferenceEntry

namespace Record

/-- A record in JSON. -/
def toJson (r : Record) : Json :=
  .record [("id", .text r.id), ("concept", r.concept.toJson),
    ("properties", .list PropertyEntry.toJson r.properties),
    ("children", .list ContainmentEntry.toJson r.children),
    ("references", .list ReferenceEntry.toJson r.references),
    ("parent", .option .text r.parent)]

/-- Read a record. -/
def ofJson? (j : Json) : Option Record := do
  let [id, concept, properties, children, references, parent] ←
    j.record? ["id", "concept", "properties", "children", "references", "parent"] | none
  return {
    id := ← Json.required Json.text? id
    concept := ← Json.required Pointer.ofJson? concept
    properties := ← Json.required (Json.list? PropertyEntry.ofJson?) properties
    children := ← Json.required (Json.list? ContainmentEntry.ofJson?) children
    references := ← Json.required (Json.list? ReferenceEntry.ofJson?) references
    parent := ← Json.optional Json.text? parent }

end Record

/-- A document in JSON. -/
def toJson (d : Document) : Json :=
  .record [("serializationFormatVersion", .text d.version),
    ("languages", .list LanguageUse.toJson d.languages),
    ("nodes", .list Record.toJson d.records)]

/-- Read a document. -/
def ofJson? (j : Json) : Option Document := do
  let [version, languages, records] ←
    j.record? ["serializationFormatVersion", "languages", "nodes"] | none
  return {
    version := ← Json.required Json.text? version
    languages := ← Json.required (Json.list? LanguageUse.ofJson?) languages
    records := ← Json.required (Json.list? Record.ofJson?) records }

/-- The text of a document. -/
def write (style : Json.Style) (d : Document) : String := d.toJson.write style

/-- Read the text of a document. -/
def read? (s : String) : Option Document := (Json.read? s).bind ofJson?

end TypedForest.Document
