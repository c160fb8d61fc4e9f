import TypedForest.Document.Basic
import TypedForest.Naming

/-!
# Exporting trees

A tree becomes a document with one record for each of its nodes, root first.
Records are identified by the paths of their nodes.  Every type must have a
pointer; a property without one is written with an empty pointer.

## Main Definitions

* `Document.recordOf`: the record of a node.
* `Document.exportTree`: the document of a tree.
-/

namespace TypedForest.Document

/-- The identifier of a node, which must have one. -/
def idOf (f : Forest) (ids : Naming) (node : NodeId) : Except Error String :=
  match ids.get? node with
  | some id => .ok id
  | none => .error (.unidentified (f.label node))

/-- Enter a property of a node into its record. -/
def enterFacet {σ : Type} [Schema σ] (schema : σ) (f : Forest) (ids : Naming)
    (type : String) (r : Record) (facet : Facet) : Except Error Record :=
  let pointer := (Schema.ofProperty? schema type facet.property.name).getD .unresolved
  match facet.slot with
  | .value v => .ok { r with properties := r.properties ++ [⟨pointer, v.wire⟩] }
  | .reference ref =>
      let targets := ref.toList.map fun t => ⟨some t.name, t.target.bind ids.get?⟩
      .ok { r with references := r.references ++ [⟨pointer, targets⟩] }
  | slot => do
      let children ← slot.owned.mapM (idOf f ids)
      return { r with children := r.children ++ [⟨pointer, children⟩] }

/-- The record of a node of the tree below `root`. -/
def recordOf {σ : Type} [Schema σ] (schema : σ) (f : Forest) (ids : Naming)
    (root node : NodeId) : Except Error Record := do
  let n ← f.node node
  match (Schema.ofType? schema n.type).filter Pointer.isResolved with
  | none => .error (.unresolved .concept n.type (f.pathText node))
  | some concept =>
      let id ← idOf f ids node
      let facets ← f.publicFacets node
      let parent := if node = root then none else n.parent.bind ids.get?
      facets.foldlM (enterFacet schema f ids n.type) { id, concept, parent }

/-- The language that a record's concept belongs to. -/
def Record.language (r : Record) : LanguageUse :=
  ⟨r.concept.version.getD "", r.concept.language.getD ""⟩

/-- The items of a list, each where it first occurs. -/
def firstUses {α : Type} [BEq α] (items : List α) : List α :=
  items.foldl (fun seen a => if seen.contains a then seen else seen ++ [a]) []

/-- The document of the tree below `root`.  That it is a tree is made sure of before
any identifier is assigned, and assignment checks it once more. -/
def exportTree {σ : Type} [Schema σ] (schema : σ) (space : String) (f : Forest)
    (root : NodeId) : Except Error Document := do
  let _ ← f.checkTree root
  match f.assignIds root (f.preorder root) (.structural space) () with
  | .error e _ => .error e
  | .ok ids _ => do
      let records ← (f.preorder root).mapM (recordOf schema f ids root)
      return { languages := firstUses (records.map Record.language), records }

end TypedForest.Document
