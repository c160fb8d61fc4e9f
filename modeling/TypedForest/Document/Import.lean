import TypedForest.Document.Basic
import TypedForest.Forest.Edit

/-!
# Importing documents

A document becomes a forest in two passes.  The first makes a node of each
record; the second, now that all identifiers are known, fills in the features.
Finally the parents that the records declare must be those that the nodes have
got, and exactly one node must have none.

## Main Definitions

* `Document.createNodes`: the first pass.
* `Document.entered`: the records with the nodes that were made of them.
* `Document.addFeatures`: the second pass, for one record.
* `Document.soleRoot`: the final check.
* `Document.importTree`: the forest of a document, and its root.

## Design Notes

Identifiers that a reference or a parent names need not be in the document:
such a reference stays unresolved, and such a parent counts as none.  A child has
to be there.  Features without a complete pointer are skipped.

The node of a record is looked up by its identifier, in the second pass and in the final
check.  Each record has been entered by then.
-/

namespace TypedForest

/-- The nodes of a document: identifier, type and number, in order. -/
structure Document.Entry where
  id : String
  type : String
  node : NodeId
deriving DecidableEq, Repr

namespace Document

/-- The node of an identifier. -/
def nodeOf? (entries : List Entry) (id : String) : Option NodeId :=
  (entries.find? fun e => e.id == id).map Entry.node

/-- Make the node of a record and enter it. -/
def createNode {σ : Type} [Schema σ] (schema : σ) (entries : List Entry) (r : Record) :
    Edit (List Entry) :=
  match Schema.toType? schema r.concept with
  | none => throw (.unresolved .concept (Text.option Text.quote r.concept.key) r.id)
  | some type => do
      let node ← Edit.create type
      if (nodeOf? entries r.id).isSome then throw (.repeatedId r.id type)
      else return entries ++ [⟨r.id, type, node⟩]

/-- Make the nodes of all records. -/
def createNodes {σ : Type} [Schema σ] (schema : σ) (records : List Record) :
    Edit (List Entry) :=
  records.foldlM (createNode schema) []

/-- The records with what has been entered for them: a type at the same place, and the
node of the identifier. -/
def entered (entries : List Entry) (records : List Record) : List (Record × Entry) :=
  (records.zip entries).filterMap fun pair =>
    (nodeOf? entries pair.1.id).map fun node => (pair.1, { pair.2 with node })

/-- The property that a pointer names, for a record of a given type.  There is
none if the pointer is incomplete. -/
def featureOf {σ : Type} [Schema σ] (schema : σ) (type : String) (r : Record)
    (pointer : Pointer) (f : Forest) : Except Error (Option Property) :=
  if pointer.isResolved then
    match Schema.toProperty? schema type pointer with
    | none => .error (.unresolved .property (Text.option Text.quote pointer.key) r.id)
    | some name => do
        let t ← f.metamodel.type type
        match t.property? name with
        | none => .error (.unknownProperty type name)
        | some p => .ok (some p)
  else .ok none

/-- Carry out an edit for the property that a pointer names, if it is of one of
the given kinds. -/
def withFeature {σ : Type} [Schema σ] (schema : σ) (type : String) (r : Record)
    (pointer : Pointer) (group : FeatureGroup) (kinds : List Kind)
    (edit : Property → Edit Unit) : Edit Unit := do
  match ← ask (featureOf schema type r pointer) with
  | none => return ()
  | some p =>
      if kinds.contains p.kind then edit p else throw (.misfiled p.name p.kind group)

/-- The value of a property entry. -/
def readValue (r : Record) (p : Property) : Option String → Except Error Value
  | none => .ok .null
  | some text =>
      match Value.read? p.valueType text with
      | some v => .ok v
      | none => .error (.unimportable (.unreadable r.id text p.valueType p.name))

/-- The nodes of the children that a record lists. -/
def childNodes (entries : List Entry) (r : Record) (children : List String) :
    Except Error (List NodeId) :=
  children.mapM fun child =>
    match nodeOf? entries child with
    | some node => .ok node
    | none => .error (.unimportable (.missingChild r.id child))

/-- The reference that a target stands for. -/
def Target.reference (entries : List Entry) (t : Target) : NamedRef :=
  ⟨t.info.getD "", t.id.bind (nodeOf? entries)⟩

/-- Fill in an attribute. -/
def addProperty {σ : Type} [Schema σ] (schema : σ) (e : Entry) (r : Record)
    (entry : PropertyEntry) : Edit Unit :=
  withFeature schema e.type r entry.property .property [.value] fun p => do
    let v ← ask fun _ => readValue r p entry.value
    Edit.setValue e.node p.name v

/-- Fill in a containment. -/
def addChildren {σ : Type} [Schema σ] (schema : σ) (entries : List Entry) (e : Entry)
    (r : Record) (entry : ContainmentEntry) : Edit Unit :=
  withFeature schema e.type r entry.containment .containment [.single, .multiple] fun p => do
    let nodes ← ask fun _ => childNodes entries r entry.children
    if p.kind = .single then
      if 1 < nodes.length then
        throw (.unimportable (.crowdedContainment r.id p.name nodes.length))
      else Edit.setChild e.node p.name nodes.head?
    else nodes.forM (Edit.append e.node p.name)

/-- Fill in a reference. -/
def addReference {σ : Type} [Schema σ] (schema : σ) (entries : List Entry) (e : Entry)
    (r : Record) (entry : ReferenceEntry) : Edit Unit :=
  withFeature schema e.type r entry.reference .reference [.reference] fun p =>
    if 1 < entry.targets.length then
      throw (.unimportable (.crowdedReference r.id p.name entry.targets.length))
    else
      Edit.setReference e.node p.name (entry.targets.head?.map (Target.reference entries))

/-- Fill in the features of a record. -/
def addFeatures {σ : Type} [Schema σ] (schema : σ) (entries : List Entry)
    (pair : Record × Entry) : Edit Unit := do
  let (r, e) := pair
  r.properties.forM (addProperty schema e r)
  r.children.forM (addChildren schema entries e r)
  r.references.forM (addReference schema entries e r)

/-- The nodes without a parent.  Each record must declare the parent that its
node has. -/
def parentless (entries : List Entry) (f : Forest) :
    List (Record × Entry) → Except Error (List NodeId)
  | [] => .ok []
  | (r, e) :: rest => do
      let n ← f.node e.node
      if n.parent = r.parent.bind (nodeOf? entries) then
        let roots ← parentless entries f rest
        return if n.parent.isNone then e.node :: roots else roots
      else .error (.unimportable (.wrongParent r.id r.parent n.parent))

/-- The only node without a parent. -/
def soleRoot (entries : List Entry) (records : List Record) (f : Forest) :
    Except Error NodeId := do
  match ← parentless entries f (entered entries records) with
  | [root] => .ok root
  | [] => .error (.unimportable .noRoot)
  | roots => .error (.unimportable (.manyRoots roots.length))

/-- Build the nodes of a document; the result is the root. -/
def build {σ : Type} [Schema σ] (schema : σ) (d : Document) : Edit NodeId := do
  let entries ← createNodes schema d.records
  (entered entries d.records).forM (addFeatures schema entries)
  ask (soleRoot entries d.records)

/-- The forest of a document, and the root of its tree. -/
def importTree {σ : Type} [Schema σ] (schema : σ) (m : Metamodel) (d : Document) :
    Except Error (Forest × NodeId) :=
  if d.version = formatVersion then
    match build schema d { metamodel := m } with
    | .ok root f => .ok (f, root)
    | .error e _ => .error e
  else .error (.unimportable (.unsupportedVersion d.version))

end Document

end TypedForest
