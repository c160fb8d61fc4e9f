import TypedForest.Forest.Basic

/-!
# Editing forests

Edits are programs over a forest that may fail.  They check everything they need
to know before they change anything, and each keeps parents and slots in
agreement: whoever becomes owned gets its owner as parent, and whoever is
replaced loses it.

## Main Definitions

* `Edit`: programs over a forest.
* `Edit.create`: new nodes.
* `Edit.setPosition`, `Edit.setValue`: data of a node.
* `Edit.setChild`, `Edit.append`, `Edit.clear`, `Edit.ignore`: containments.
* `Edit.setReference`, `Edit.resolve`, `Edit.unresolve`: references.
* `Forest.checkAdoption`: whether a node may become a child of another.

## Design Notes

A failing edit ends in a forest too (`EStateM` keeps the state), so whether a
failure leaves traces is a question about the edits and not settled by their
type.
-/

namespace TypedForest

/-- A program over a forest that may fail. -/
abbrev Edit (α : Type) := EStateM Error Forest α

namespace Forest

/-- Change the node of a given number. -/
def modify (f : Forest) (id : NodeId) (change : Node → Node) : Forest :=
  { f with nodes := f.nodes.modify id.index change }

@[simp] theorem size_modify (f : Forest) (id : NodeId) (change : Node → Node) :
    (f.modify id change).size = f.size := by
  simp [modify, size]

theorem get?_modify (f : Forest) (id other : NodeId) (change : Node → Node) :
    (f.modify id change).get? other =
      if other = id then (f.get? other).map change else f.get? other := by
  obtain ⟨i⟩ := id
  obtain ⟨j⟩ := other
  by_cases same : j = i
  · subst same
    simp [modify, get?]
  · have different : i ≠ j := fun h => same h.symm
    simp [modify, get?, same, different]

/-- May `child` become a child of `parent` through the property?  It must not be
the parent itself or above it, it must exist and be free, and it must be of the
right type. -/
def checkAdoption (f : Forest) (parent child : NodeId) (property : Property) :
    Except Error Unit :=
  if child = parent ∨ child ∈ f.ancestors parent then .error (.cyclic (f.label child))
  else
    match f.get? child with
    | none => .error (.unknownNode child)
    | some n =>
        match n.parent with
        | some owner => .error (.misplaced (.owned (f.label child) (f.label owner)))
        | none =>
            match property.childType with
            | none => .ok ()
            | some expected =>
                if f.metamodel.assignable n.type expected then .ok ()
                else .error (.incompatible property.name (.child expected n.type))

/-- May the attribute take the value?  It must be of the declared type, and a
literal must be one of its enumeration. -/
def checkValue (f : Forest) (property : Property) (v : Value) : Except Error Unit :=
  if v.conforms property.valueType then
    match v, property.valueType with
    | .enum enumeration literal, .enum _ =>
        if ((f.metamodel.literals? enumeration).getD []).contains literal then .ok ()
        else .error (.incompatible property.name (.literal enumeration literal))
    | _, _ => .ok ()
  else .error (.incompatible property.name (.value property.valueType v))

end Forest

namespace Edit

/-- Change a node, which must exist. -/
def update (id : NodeId) (change : Node → Node) : Edit Unit := do
  let _ ← ask fun f => f.node id
  modify fun f => f.modify id change

/-- Replace the content of a slot. -/
def setSlot (id : NodeId) (site : Site) (slot : Slot) : Edit Unit :=
  update id fun n => { n with slots := n.slots.set site.index slot }

/-- Record the owner of a node. -/
def setParent (id : NodeId) (parent : Option NodeId) : Edit Unit :=
  update id fun n => { n with parent := parent }

/-! ### Nodes and their data -/

/-- Add a free node of a concrete type, with all slots empty. -/
def create (type : String) : Edit NodeId := do
  let t ← ask fun f => f.metamodel.type type
  if t.isAbstract then throw (.misconfigured (.abstractType type))
  else
    let id : NodeId := ⟨(← get).size⟩
    let slots := t.effective.map fun p => Slot.empty p.kind
    modify fun f => { f with nodes := f.nodes ++ [{ id, type, slots }] }
    return id

/-- Record where a node comes from. -/
def setPosition (id : NodeId) (position : Position) : Edit Unit :=
  update id fun n => { n with position := some position }

/-- Give an attribute a value. -/
def setValue (id : NodeId) (property : String) (v : Value) : Edit Unit := do
  let site ← ask fun f => f.locate id property .value
  ask fun f => f.checkValue site.property v
  setSlot id site (.value v)

/-! ### Containments -/

/-- Fill or empty a single containment.  A child that is replaced becomes free. -/
def setChild (owner : NodeId) (property : String) (child : Option NodeId) : Edit Unit := do
  let site ← ask fun f => f.locate owner property .single
  let n ← ask fun f => f.node owner
  let previous := (n.slotAt site).single?
  if previous = child then return ()
  else
    child.forM fun c => ask fun f => f.checkAdoption owner c site.property
    previous.forM fun p => setParent p none
    child.forM fun c => setParent c (some owner)
    setSlot owner site (.child child)

/-- Add a child at the end of a multiple containment.  An absent or ignored list
becomes a list of one. -/
def append (owner : NodeId) (property : String) (child : NodeId) : Edit Unit := do
  let site ← ask fun f => f.locate owner property .multiple
  ask fun f => f.checkAdoption owner child site.property
  setParent child (some owner)
  let n ← ask fun f => f.node owner
  setSlot owner site (.children (some ((n.slotAt site).listed ++ [child])))

/-- Replace a multiple containment, whose children become free. -/
def release (owner : NodeId) (property : String) (slot : Slot) : Edit Unit := do
  let site ← ask fun f => f.locate owner property .multiple
  let n ← ask fun f => f.node owner
  (n.slotAt site).owned.forM fun c => setParent c none
  setSlot owner site slot

/-- Make the list of a multiple containment absent. -/
def clear (owner : NodeId) (property : String) : Edit Unit :=
  release owner property (.children none)

/-- Mark a multiple containment as one that comparisons skip. -/
def ignore (owner : NodeId) (property : String) : Edit Unit :=
  release owner property .ignored

/-! ### References -/

/-- Store a reference, or remove it.  What it is resolved to must exist. -/
def setReference (id : NodeId) (property : String) (reference : Option NamedRef) :
    Edit Unit := do
  let site ← ask fun f => f.locate id property .reference
  (reference.bind NamedRef.target).forM fun target => do
    let _ ← ask fun f => f.node target
  setSlot id site (.reference reference)

/-- Change the target of a reference, which must be there. -/
def retarget (id : NodeId) (property : String) (target : Option NodeId) : Edit Unit := do
  let site ← ask fun f => f.locate id property .reference
  let n ← ask fun f => f.node id
  match n.slotAt site with
  | .reference (some r) => setSlot id site (.reference (some { r with target := target }))
  | _ => throw (.incompatible property .emptyReference)

/-- Resolve a reference to an existing node. -/
def resolve (id : NodeId) (property : String) (target : NodeId) : Edit Unit := do
  let _ ← ask fun f => f.node target
  retarget id property (some target)

/-- Make a reference unresolved. -/
def unresolve (id : NodeId) (property : String) : Edit Unit :=
  retarget id property none

end Edit

end TypedForest
