import TypedForest.Forest.Node

/-!
# Errors

Everything that can go wrong, by cause.  An error records what was found; its
wording is kept in one place, so that the operations say what happened and never
how it is told.  Nodes appear in errors as the descriptions they had when the
error arose.

## Main Definitions

* `Misconfiguration`: what a metamodel or a language refuses.
* `Incompatibility`: what a property refuses.
* `Misplacement`: a node in the wrong place.
* `Difference`: where two trees differ.
* `ImportFault`: what makes a document unreadable.
* `Error`, `Error.message`: all of them, and their texts.
-/

namespace TypedForest

/-- A registration or instantiation that cannot be carried out. -/
inductive Misconfiguration where
  | repeatedEnumeration (name : String)
  | repeatedLiteral (enumeration literal : String)
  | repeatedType (name : String)
  | unknownSupertype (type supertype : String)
  | repeatedProperty (type property : String)
  | unknownEnumeration (type property enumeration : String)
  /-- Two types declare a property of one name, and a third inherits both. -/
  | collision (type property first second : String)
  | abstractType (name : String)
  | repeatedLanguage (key version : String)
deriving DecidableEq, Repr

/-- Why a property does not take what is offered to it. -/
inductive Incompatibility where
  /-- The property is of another kind. -/
  | kind (expected actual : Kind)
  /-- The value is of another type. -/
  | value (expected : DataType) (actual : Value)
  /-- The literal is none of its enumeration's. -/
  | literal (enumeration literal : String)
  /-- The node is of the wrong type. -/
  | child (expected actual : String)
  /-- There is no reference to resolve. -/
  | emptyReference
deriving DecidableEq, Repr

/-- A node that is not where it should be. -/
inductive Misplacement where
  /-- The node is owned already. -/
  | owned (child owner : String)
  /-- The node's parent is not the node that contains it. -/
  | astray (child owner : String) (parent : Option NodeId)
deriving DecidableEq, Repr

/-- How an actual tree departs from an expected one. -/
inductive Difference where
  | type (expected actual : String)
  | position (expected actual : Option Position)
  /-- A list of children is absent on one side. -/
  | presence (expected actual : Bool)
  | length (expected actual : Nat)
  /-- The actual list of children is one that comparisons skip. -/
  | unchecked
  /-- A single child is absent on one side. -/
  | child (expected actual : Option String)
  /-- A reference, given by its name, is absent on one side. -/
  | reference (expected actual : Option String)
  | name (expected actual : String)
  /-- References of one name lead to different nodes. -/
  | target (expected actual : Option String)
  | value (expected actual : Value)
  | kind (expected actual : Kind)
  /-- Issues where none are expected. -/
  | unexpectedIssues (actual : List Issue)
  | issues (expected actual : List Issue)
  /-- There is no tree to compare with the expected one. -/
  | missingTree (expected : String)
  /-- A tree is absent on one side. -/
  | tree (expected actual : Bool)
deriving DecidableEq, Repr

/-- Why a document cannot be turned into a tree. -/
inductive ImportFault where
  | unsupportedVersion (version : String)
  | unreadable (record text : String) (dataType : DataType) (property : String)
  | missingChild (record child : String)
  | crowdedContainment (record property : String) (count : Nat)
  | crowdedReference (record property : String) (count : Nat)
  /-- The parent that a record names is not the one that contains it. -/
  | wrongParent (record : String) (declared : Option String) (actual : Option NodeId)
  | noRoot
  | manyRoots (count : Nat)
deriving DecidableEq, Repr

/-- What a schema can fail to know. -/
inductive SchemaItem where
  | concept
  | property
deriving DecidableEq, Repr

/-- The part of a record in which a feature is listed. -/
inductive FeatureGroup where
  | property
  | containment
  | reference
deriving DecidableEq, Repr

/-- Everything that can go wrong. -/
inductive Error where
  | misconfigured (cause : Misconfiguration)
  | unknownType (name : String)
  | unknownNode (id : NodeId)
  /-- A node, given by its description, has no identifier. -/
  | unidentified (node : String)
  | unknownProperty (type property : String)
  | incompatible (property : String) (cause : Incompatibility)
  | misplaced (cause : Misplacement)
  /-- A feature is listed in the wrong part of a record. -/
  | misfiled (property : String) (kind : Kind) (group : FeatureGroup)
  | different (place : String) (difference : Difference)
  | missingProperty (place property : String)
  | unresolved (item : SchemaItem) (name place : String)
  /-- A node would be, or is, below itself. -/
  | cyclic (node : String)
  | repeatedId (id node : String)
  /-- A reference is not in the state of resolution that was asked for. -/
  | resolution (place property name : String) (expected : Bool)
  | unimportable (cause : ImportFault)
deriving DecidableEq, Repr

/-! ### Wording -/

namespace Misconfiguration

/-- The text of a misconfiguration. -/
def message : Misconfiguration → String
  | repeatedEnumeration name => s!"enumeration {name} registered twice"
  | repeatedLiteral enumeration literal => s!"enumeration {enumeration} repeats literal {literal}"
  | repeatedType name => s!"node type {name} registered twice"
  | unknownSupertype type supertype => s!"{type} extends unknown type {supertype}"
  | repeatedProperty type property => s!"{type} declares property {property} twice"
  | unknownEnumeration type property enumeration =>
      s!"{type}.{property} uses unknown enumeration {enumeration}"
  | collision type property first second =>
      s!"property {property} of {type} collides: declared by both {first} and {second}"
  | abstractType name => s!"cannot instantiate abstract type {name}"
  | repeatedLanguage key version => s!"language {key} version {version} registered twice"

end Misconfiguration

namespace Incompatibility

/-- What the property takes. -/
def expected : Incompatibility → String
  | kind expected _ => expected.text
  | value expected _ => expected.inspect
  | literal enumeration _ => s!"a literal of {enumeration}"
  | child expected _ => expected
  | emptyReference => "a named reference"

/-- What it was offered. -/
def actual : Incompatibility → String
  | kind _ actual => actual.text
  | value _ actual => actual.typeName
  | literal _ given => given
  | child _ actual => actual
  | emptyReference => "an empty reference slot"

end Incompatibility

namespace Misplacement

/-- The text of a misplacement. -/
def message : Misplacement → String
  | owned child owner => s!"{child} already has parent {owner}"
  | astray child owner parent =>
      s!"{child} is contained by {owner} but its parent is {Text.option NodeId.inspect parent}"

end Misplacement

namespace Difference

/-- The word for an absent item. -/
def orNull (item : Option String) : String := item.getD "null"

/-- The aspect of a place that differs, as it is appended to the place. -/
def aspect : Difference → String
  | position _ _ => ".position"
  | presence _ _ => " nullness"
  | length _ _ => " length"
  | name _ _ => " name"
  | target _ _ => " referred"
  | unexpectedIssues _ => ".issues"
  | issues _ _ => ".issues"
  | _ => ""

/-- The text for a list of children or its absence. -/
def collection (present : Bool) : String := if present then "a collection" else "null"

/-- The text for a tree or its absence. -/
def rootNode (present : Bool) : String := if present then "a root node" else "null"

/-- The text for a reference or its absence. -/
def referenceNamed (name : Option String) : String :=
  orNull (name.map fun n => s!"reference '{n}'")

/-- What was expected. -/
def expected : Difference → String
  | type expected _ => s!"node of type {expected}"
  | position expected _ => orNull (expected.map Position.text)
  | presence expected _ => collection expected
  | length expected _ => s!"{expected}"
  | unchecked => "a checked collection"
  | child expected _ => orNull expected
  | reference expected _ => referenceNamed expected
  | name expected _ => expected
  | target expected _ => orNull expected
  | value expected _ => expected.inspect
  | kind expected _ => expected.text
  | unexpectedIssues _ => "no issues"
  | issues expected _ => Issue.inspectAll expected
  | missingTree expected => expected
  | tree expected _ => rootNode expected

/-- What was found. -/
def actual : Difference → String
  | type _ actual => s!"node of type {actual}"
  | position _ actual => orNull (actual.map Position.text)
  | presence _ actual => collection actual
  | length _ actual => s!"{actual}"
  | unchecked => "an ignored collection"
  | child _ actual => orNull actual
  | reference _ actual => referenceNamed actual
  | name _ actual => actual
  | target _ actual => orNull actual
  | value _ actual => actual.inspect
  | kind _ actual => actual.text
  | unexpectedIssues actual => Issue.inspectAll actual
  | issues _ actual => Issue.inspectAll actual
  | missingTree _ => "null"
  | tree _ actual => rootNode actual

end Difference

namespace ImportFault

/-- The text of an import fault. -/
def message : ImportFault → String
  | unsupportedVersion version => s!"unsupported serialization format version {version}"
  | unreadable record text dataType property =>
      s!"{record}: cannot read '{text}' as {dataType.inspect} for {property}"
  | missingChild record child => s!"{record}: child {child} is not in the document"
  | crowdedContainment record property count =>
      s!"{record}: single containment {property} holds {count} children"
  | crowdedReference record property count =>
      s!"{record}: single reference {property} has {count} targets"
  | wrongParent record declared actual =>
      s!"{record}: declared parent {Text.option Text.quote declared}" ++
        s!" but contained by {Text.option NodeId.inspect actual}"
  | noRoot => "document has no root"
  | manyRoots count => s!"document has {count} roots"

end ImportFault

namespace SchemaItem

/-- The word for a schema item. -/
def word : SchemaItem → String
  | concept => "concept"
  | property => "property"

end SchemaItem

namespace FeatureGroup

/-- The word for a part of a record. -/
def word : FeatureGroup → String
  | property => "property"
  | containment => "containment"
  | reference => "reference"

end FeatureGroup

namespace Error

/-- The text of an error. -/
def message : Error → String
  | misconfigured cause => s!"Configuration error: {cause.message}"
  | unknownType name => s!"Unknown node type: {name}"
  | unknownNode id => s!"Unknown node: {id.text}"
  | unidentified node => s!"Unknown node: {node}"
  | unknownProperty type property => s!"Unknown property '{property}' on {type}"
  | incompatible property cause =>
      s!"Kind mismatch on '{property}': expected {cause.expected}, got {cause.actual}"
  | misplaced cause => s!"Invalid containment: {cause.message}"
  | misfiled property kind group =>
      s!"Unhandled property kind for '{property}': {kind.text} listed under {group.word}"
  | different place difference =>
      s!"{place}{difference.aspect}: expecting {difference.expected}, actual {difference.actual}"
  | missingProperty place property => s!"No property {property} found at {place}"
  | unresolved item name place =>
      s!"Unresolved schema reference for {item.word} '{name}' at {place}"
  | cyclic node => s!"Cyclic containment: {node} appears as its own descendant"
  | repeatedId id node => s!"Duplicate id '{id}' produced for {node}"
  | resolution place property name expected =>
      s!"{place}.{property}: reference '{name}' expected to be " ++
        if expected then "resolved" else "unresolved"
  | unimportable cause => s!"Import error: {cause.message}"

end Error

/-! ### Programs that may fail -/

/-- Ask the state of a program a question that may fail. -/
def ask {σ α : Type} (question : σ → Except Error α) : EStateM Error σ α := fun s =>
  match question s with
  | .ok a => .ok a s
  | .error e => .error e s

section Ask

variable {σ α : Type} {question : σ → Except Error α} {s : σ}

theorem ask_of_ok {a : α} (h : question s = .ok a) : ask question s = .ok a s := by
  simp [ask, h]

theorem ask_of_error {e : Error} (h : question s = .error e) : ask question s = .error e s := by
  simp [ask, h]

end Ask

end TypedForest
