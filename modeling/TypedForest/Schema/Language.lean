import TypedForest.Dictionary
import TypedForest.Metamodel.Register
import TypedForest.Schema.Basic

/-!
# Languages

A language is a versioned set of concepts, each standing for a node type.  The
key of a concept is made from the language and the type; the key of a property
is its name.  A property has a key only if the type that declares it is a
concept of the language too.

## Main Definitions

* `Concept`, `Language`: the concepts of a language.
* `Language.enroll`, `Language.ofMetamodel`: concepts from a metamodel.
* `Registry`: several languages, searched in order.

## Design Notes

Adding concepts goes in two steps, and either may stop half way: first the new
names are entered, then the properties of all concepts are determined anew.
What was entered before a failure stays (`EStateM` keeps the state).
-/

namespace TypedForest

/-- A node type as a concept of a language. -/
structure Concept where
  type : String
  key : String
  /-- The keys of the properties that have one, by their names. -/
  properties : Dictionary String String := .empty
deriving DecidableEq, Repr

/-- A versioned set of concepts. -/
structure Language where
  key : String
  version : String
  /-- The concepts, in the order in which they were added. -/
  concepts : List Concept := []
deriving DecidableEq, Repr

namespace Language

/-- The concept of a node type. -/
def concept? (l : Language) (type : String) : Option Concept :=
  l.concepts.find? fun c => c.type == type

/-- The pointer to a key of the language. -/
def pointer (l : Language) (key : String) : Pointer :=
  ⟨some l.key, some l.version, some key⟩

/-- Does the pointer lead into the language? -/
def owns (l : Language) (p : Pointer) : Bool :=
  p.language == some l.key && p.version == some l.version

/-- The pointer to the concept of a type. -/
def typePointer? (l : Language) (type : String) : Option Pointer :=
  (l.concept? type).map fun c => l.pointer c.key

/-- The pointer to a property of a type. -/
def featurePointer? (l : Language) (type property : String) : Option Pointer :=
  (l.concept? type).bind fun c => (c.properties.get? property).map l.pointer

/-- The type whose concept has a key. -/
def typeOfKey? (l : Language) (key : String) : Option String :=
  (l.concepts.find? fun c => c.key == key).map Concept.type

/-- The property of a type that has a key. -/
def propertyOfKey? (l : Language) (type key : String) : Option String :=
  (l.concept? type).bind fun c =>
    (c.properties.entries.find? fun entry => entry.2 == key).map Prod.fst

/-- Enter a concept without properties, unless it is there. -/
def enter (l : Language) (type : String) : Language :=
  if (l.concept? type).isSome then l
  else { l with concepts := l.concepts ++ [{ type, key := s!"{l.key}-{type}" }] }

/-- The properties of a type that have a key when the given types are concepts, with
their keys. -/
def keyed (registered : List String) (t : NodeType) : Dictionary String String :=
  .ofList ((t.effective.filter fun p => registered.contains p.declaredBy).map fun p =>
    (p.name, p.name))

/-- Determine the properties of a concept from its type. -/
def setFeatures (l : Language) (registered : List String) (type : String) (t : NodeType) :
    Language :=
  { l with
    concepts := l.concepts.map fun c =>
      if c.type = type then { c with properties := keyed registered t } else c }

/-- A type that must be known to the metamodel. -/
def known (m : Metamodel) (type : String) : EStateM Error Language NodeType :=
  ask fun _ => m.type type

/-- Make the named types concepts of the language, and determine the properties
of all its concepts. -/
def enroll (m : Metamodel) (types : List String) : EStateM Error Language Unit := do
  types.forM fun type => do
    let _ ← known m type
    modify fun l => l.enter type
  let registered := (← get).concepts.map Concept.type
  registered.forM fun type => do
    let t ← known m type
    modify fun l => l.setFeatures registered type t

/-- The language in which every type of a metamodel is a concept. -/
def ofMetamodel (key version : String) (m : Metamodel) : Except Error Language :=
  match enroll m (m.types.map NodeType.name) { key, version } with
  | .ok _ l => .ok l
  | .error e _ => .error e

instance : Schema Language where
  ofType? := typePointer?
  ofProperty? := featurePointer?
  toType? l p := p.key.bind fun key => if l.owns p then l.typeOfKey? key else none
  toProperty? l type p :=
    p.key.bind fun key => if l.owns p then l.propertyOfKey? type key else none

end Language

/-- Several languages, searched in the order of registration. -/
structure Registry where
  languages : List Language := []
deriving DecidableEq, Repr

namespace Registry

/-- Add a language.  A language may be there in several versions, but in each
only once. -/
def register (r : Registry) (l : Language) : Except Error Registry :=
  if r.languages.any fun k => k.key == l.key && k.version == l.version then
    .error (.misconfigured (.repeatedLanguage l.key l.version))
  else .ok ⟨r.languages ++ [l]⟩

/-- The first language that knows a type. -/
def languageOf? (r : Registry) (type : String) : Option Language :=
  r.languages.find? fun l => (l.concept? type).isSome

instance : Schema Registry where
  ofType? r type := (r.languageOf? type).bind fun l => l.typePointer? type
  ofProperty? r type property :=
    (r.languageOf? type).bind fun l => l.featurePointer? type property
  toType? r p :=
    p.key.bind fun key =>
      (r.languages.filter fun l => l.owns p).findSome? fun l => l.typeOfKey? key
  toProperty? r type p :=
    (r.languageOf? type).bind fun l =>
      p.key.bind fun key => if l.owns p then l.propertyOfKey? type key else none

end Registry

end TypedForest
