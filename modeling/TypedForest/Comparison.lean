import TypedForest.Outcome

/-!
# Comparing trees

An actual tree is compared with an expected one, node by node from the roots
down.  The expected tree decides what is compared: each of its public properties
must be there on the actual side, while properties that only the actual side has
do not count, and a list of children marked as ignored matches anything.  The
first difference ends the comparison.

## Main Definitions

* `Comparison`: how strict a comparison is.
* `Comparison.trees`: compare two trees.
* `Comparison.withOutcome`, `Outcome.compare`: compare outcomes.

## Design Notes

References are compared by the descriptions of their targets.  The comparison
therefore follows containments only, and references that lead in circles do it
no harm.  The budget bounds the height of the expected tree.
-/

namespace TypedForest

/-- How strict a comparison is. -/
structure Comparison where
  /-- Do positions matter? -/
  positions : Bool := false
  /-- Are attributes compared by their wire forms only? -/
  lightweight : Bool := false
deriving DecidableEq, Repr

namespace Comparison

/-- The place of the roots in messages. -/
def rootPlace : String := "<root>"

/-- Are the values equal for this comparison? -/
def sameValue (c : Comparison) (expected actual : Value) : Bool :=
  if c.lightweight then expected.wire == actual.wire else expected.equal actual

/-- Compare two references. -/
def references (expected actual : Forest) (place : String) :
    Option NamedRef → Option NamedRef → Except Error Unit
  | none, none => .ok ()
  | some e, some a =>
      if e.name = a.name then
        let eTarget := e.target.map expected.label
        let aTarget := a.target.map actual.label
        if eTarget = aTarget then .ok () else .error (.different place (.target eTarget aTarget))
      else .error (.different place (.name e.name a.name))
  | e, a => .error (.different place (.reference (e.map NamedRef.name) (a.map NamedRef.name)))

/-- Compare two lists of nodes of one length, item by item. -/
def items (node : String → NodeId → NodeId → Except Error Unit) (place : String) :
    Nat → List NodeId → List NodeId → Except Error Unit
  | i, e :: es, a :: as => do
      node s!"{place}[{i}]" e a
      items node place (i + 1) es as
  | _, _, _ => .ok ()

/-- Compare two slots, given how nodes are compared. -/
def slots (c : Comparison) (expected actual : Forest)
    (node : String → NodeId → NodeId → Except Error Unit) (place : String) :
    Slot → Slot → Except Error Unit
  | .ignored, _ => .ok ()
  | .children none, .children none => .ok ()
  | .children (some es), .children (some as) =>
      if es.length = as.length then items node place 0 es as
      else .error (.different place (.length es.length as.length))
  | .children es, .children as =>
      .error (.different place (.presence es.isSome as.isSome))
  | .children _, .ignored => .error (.different place .unchecked)
  | .child none, .child none => .ok ()
  | .child (some e), .child (some a) => node place e a
  | .child e, .child a =>
      .error (.different place (.child (e.map expected.label) (a.map actual.label)))
  | .reference e, .reference a => references expected actual place e a
  | .value e, .value a =>
      if c.sameValue e a then .ok () else .error (.different place (.value e a))
  | e, a => .error (.different place (.kind e.kind a.kind))

/-- Compare an expected property with its counterpart. -/
def facets (c : Comparison) (expected actual : Forest)
    (node : String → NodeId → NodeId → Except Error Unit) (place : String)
    (counterparts : List Facet) (e : Facet) : Except Error Unit :=
  match counterparts.find? fun a => a.property.name == e.property.name with
  | none => .error (.missingProperty place e.property.name)
  | some a => slots c expected actual node s!"{place}.{e.property.name}" e.slot a.slot

/-- Compare two nodes and what is below them. -/
def nodes (c : Comparison) (expected actual : Forest) :
    Nat → String → NodeId → NodeId → Except Error Unit
  | 0, _, e, _ => .error (.cyclic (expected.label e))
  | budget + 1, place, e, a => do
      let eNode ← expected.node e
      let aNode ← actual.node a
      if eNode.type ≠ aNode.type then
        .error (.different place (.type eNode.type aNode.type))
      else if c.positions ∧ eNode.position ≠ aNode.position then
        .error (.different place (.position eNode.position aNode.position))
      else do
        let aFacets ← actual.publicFacets a
        let eFacets ← expected.publicFacets e
        eFacets.forM (facets c expected actual (nodes c expected actual budget) place aFacets)

/-- Compare the tree below `e` with the tree below `a`. -/
def trees (c : Comparison) (expected : Forest) (e : NodeId) (actual : Forest) (a : NodeId) :
    Except Error Unit :=
  c.nodes expected actual (expected.size + 1) rootPlace e a

/-- Compare a tree with an outcome, which must be free of issues. -/
def withOutcome (c : Comparison) (expected : Forest) (e : NodeId) (actual : Outcome) :
    Except Error Unit :=
  if actual.issues.isEmpty then
    match actual.root with
    | none => .error (.different rootPlace (.missingTree (expected.label e)))
    | some a => c.trees expected e actual.forest a
  else .error (.different rootPlace (.unexpectedIssues actual.issues))

end Comparison

/-- Compare two outcomes: the same issues, and equal trees or none. -/
def Outcome.compare (expected actual : Outcome) : Except Error Unit :=
  if expected.issues = actual.issues then
    match expected.root, actual.root with
    | none, none => .ok ()
    | some e, some a => Comparison.trees {} expected.forest e actual.forest a
    | e, a => .error (.different Comparison.rootPlace (.tree e.isSome a.isSome))
  else .error (.different Comparison.rootPlace (.issues expected.issues actual.issues))

end TypedForest
