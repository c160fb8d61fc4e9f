import TypedForest.Text.Quoted

/-!
# Schemas

Documents name types and properties by pointers: a language, its version and a
key in it.  A schema leads from the names of a metamodel to pointers
and back.

## Main Definitions

* `Pointer`: language, version and key, each of which may be missing.
* `Schema`: the four look-ups.
-/

namespace TypedForest

/-- The name of a type or a property in a document. -/
structure Pointer where
  language : Option String := none
  version : Option String := none
  key : Option String := none
deriving DecidableEq, Repr

namespace Pointer

/-- The pointer to nothing, all of whose parts are missing. -/
def unresolved : Pointer := {}

/-- Is no part missing? -/
def isResolved (p : Pointer) : Bool :=
  p.language.isSome && p.version.isSome && p.key.isSome

end Pointer

/-- The way from the names of a metamodel to pointers, and back. -/
class Schema (σ : Type) where
  /-- The pointer of a type. -/
  ofType? : σ → String → Option Pointer
  /-- The pointer of a property of a type. -/
  ofProperty? : σ → String → String → Option Pointer
  /-- The type that a pointer names. -/
  toType? : σ → Pointer → Option String
  /-- The property of a type that a pointer names. -/
  toProperty? : σ → String → Pointer → Option String

end TypedForest
