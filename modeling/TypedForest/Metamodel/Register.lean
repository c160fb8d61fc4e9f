import TypedForest.Error
import TypedForest.Metamodel.Basic

/-!
# Registering types and enumerations

A metamodel grows by registration only, and registration accepts nothing that
would make its tables ambiguous: names are new, supertypes and enumerations are
known, and no two types contribute a property of the same name.  The same
property reaching a type along several supertypes counts once.

## Main Definitions

* `firstRepeated?`: the first item that occurred before.
* `Registering`: programs over a metamodel.
* `Metamodel.registerEnumeration`, `Metamodel.register`: the two ways to grow.
* `NodeType.adopt`: add a property to a table of effective properties.
* `Metamodel.type`: look-up of a type that must exist.

## Design Notes

A failing registration ends in a metamodel too (`EStateM` keeps the state), and the
order of types and the table of types are written one after the other.  That a
failure leaves no traces, and that the two agree, is a matter of the programs and
not settled by their types.
-/

namespace TypedForest

/-- The first item of a list that also stands earlier in it. -/
def firstRepeated? {α : Type} [BEq α] (seen : List α) : List α → Option α
  | [] => none
  | a :: rest => if seen.contains a then some a else firstRepeated? (a :: seen) rest

/-- A program over a metamodel that may fail. -/
abbrev Registering (α : Type) := EStateM Error Metamodel α

/-- Add a property to the effective properties of a type.  A property that is
there already is not added again, and another one of its name is refused. -/
def NodeType.adopt (type : String) (table : List Property) (p : Property) :
    Except Error (List Property) :=
  match table.find? fun q => q.name == p.name with
  | none => .ok (table ++ [p])
  | some q =>
      if q.declaredBy = p.declaredBy then .ok table
      else .error (.misconfigured (.collision type p.name q.declaredBy p.declaredBy))

namespace Metamodel

/-- The node type of a given name, which must be registered. -/
def type (m : Metamodel) (name : String) : Except Error NodeType :=
  match m.type? name with
  | some t => .ok t
  | none => .error (.unknownType name)

/-- A name for a node type, which must be new. -/
def checkTypeName (m : Metamodel) (name : String) : Except Error Unit :=
  if (m.type? name).isSome then .error (.misconfigured (.repeatedType name)) else .ok ()

/-- A name for an enumeration, which must be new. -/
def checkEnumerationName (m : Metamodel) (name : String) : Except Error Unit :=
  if (m.literals? name).isSome then .error (.misconfigured (.repeatedEnumeration name))
  else .ok ()

/-- Extend a table by the effective properties of a supertype. -/
def inherit (m : Metamodel) (type : String) (table : List Property) (supertype : String) :
    Except Error (List Property) :=
  match m.type? supertype with
  | none => .error (.misconfigured (.unknownSupertype type supertype))
  | some s => s.effective.foldlM (NodeType.adopt type) table

/-- Extend a table by a property that the type itself declares. -/
def declare (m : Metamodel) (type : String) (table : List Property) (p : Property) :
    Except Error (List Property) :=
  match p.dataType with
  | some (.enum enumeration) =>
      if (m.literals? enumeration).isNone then
        .error (.misconfigured (.unknownEnumeration type p.name enumeration))
      else NodeType.adopt type table p
  | _ => NodeType.adopt type table p

/-- Register an enumeration with distinct literals under a new name. -/
def registerEnumeration (name : String) (literals : List String) : Registering Unit := do
  ask fun m => m.checkEnumerationName name
  match firstRepeated? [] literals with
  | some literal => throw (.misconfigured (.repeatedLiteral name literal))
  | none => modify fun m => { m with enumerations := m.enumerations.insert name literals }

/-- The node type that a declaration describes. -/
def describe (d : TypeDeclaration) : Registering NodeType := do
  ask fun m => m.checkTypeName d.name
  let inherited ← d.supertypes.foldlM (fun table s => ask fun m => m.inherit d.name table s) []
  match firstRepeated? [] (d.properties.map Property.name) with
  | some property => throw (.misconfigured (.repeatedProperty d.name property))
  | none =>
      let declared := d.properties.map fun p => { p with declaredBy := d.name }
      let effective ← declared.foldlM (fun table p => ask fun m => m.declare d.name table p)
        inherited
      return ⟨d.name, d.supertypes, d.isAbstract, declared, effective⟩

/-- Register a node type under a new name. -/
def register (d : TypeDeclaration) : Registering Unit := do
  let t ← describe d
  modify fun m => { m with order := m.order ++ [t.name] }
  modify fun m => { m with table := m.table.insert t.name t }

end Metamodel

end TypedForest
