import TypedForest.Forest.Containment

/-!
# States of resolution

After names have been resolved, one may want to know that no reference in a tree
was missed, or that none was resolved too early.  A selector says which
references are meant; a tree without any such reference passes.

## Main Definitions

* `Selector`: which reference properties are inspected.
* `Forest.checkResolution`: all selected references are resolved, or none is.
-/

namespace TypedForest

/-- Which reference properties are inspected. -/
inductive Selector where
  /-- All of them. -/
  | any
  /-- Those of one name, on the type that declares them or on nodes of a type. -/
  | property (owner name : String)
  /-- Those whose target type is the given one or below it. -/
  | target (type : String)
deriving DecidableEq, Repr

namespace Selector

/-- Does the selector pick the property of a node of the given type? -/
def picks (s : Selector) (m : Metamodel) (type : String) (p : Property) : Bool :=
  p.kind == .reference &&
    match s with
    | any => true
    | property owner name => p.name == name && (p.declaredBy == owner || type == owner)
    | target super =>
        match p.targetType with
        | some sub => m.assignable sub super
        | none => false

end Selector

namespace Forest

/-- Inspect the properties of one node, counting the references met so far. -/
def checkFacets (f : Forest) (s : Selector) (expected : Bool) (id : NodeId)
    (type : String) : Nat → List Facet → Except Error Nat
  | count, [] => .ok count
  | count, facet :: facets =>
      if s.picks f.metamodel type facet.property then
        match facet.slot with
        | .reference (some r) =>
            if r.isResolved = expected then
              checkFacets f s expected id type (count + 1) facets
            else
              .error (.resolution (f.pathText id) facet.property.name r.name expected)
        | _ => checkFacets f s expected id type count facets
      else checkFacets f s expected id type count facets

/-- Inspect a node, then the trees below it.  The budget bounds the height of the
tree. -/
def checkBelow (f : Forest) (s : Selector) (expected : Bool) :
    Nat → Nat → NodeId → Except Error Nat
  | 0, _, id => .error (.cyclic (f.label id))
  | budget + 1, count, id => do
      let n ← f.node id
      let facets ← f.publicFacets id
      let count ← f.checkFacets s expected id n.type count facets
      (f.children id).foldlM (checkBelow f s expected budget) count

/-- Check that the selected references below `root` are all resolved, or all
unresolved, as expected; the result is their number. -/
def checkResolution (f : Forest) (root : NodeId) (s : Selector) (expected : Bool) :
    Except Error Nat := do
  let _ ← f.checkTree root
  f.checkBelow s expected f.size 0 root

end Forest

end TypedForest
