import TypedForest.Text.Quoted

/-!
# Containment paths

A node is reached from the root of its tree by a path: at each step, a property
and, in a list of children, a place in the list.  Paths appear in messages, and
they make identifiers.

## Main Definitions

* `Path.Step`, `Path`: steps from an owner to an owned node, from the root down.
* `Path.text`: the readable form, such as `root.body[2].condition`.
* `Path.identifier`: the form used in identifiers, such as `root_body_2_condition`.

## Design Notes

The readable form writes property names as they are.  The identifier form
encodes them, so that a name never contains the separator and only a place in
a list starts with a digit; different paths have different identifiers.
-/

namespace TypedForest

/-- A step from an owner to a node that it owns. -/
structure Path.Step where
  property : String
  /-- The place in a list of children. -/
  index : Option Nat
deriving DecidableEq, Repr

/-- The steps from a root down to a node. -/
abbrev Path := List Path.Step

namespace Path.Step

/-- The readable form of a step. -/
def text (s : Step) : String :=
  match s.index with
  | none => s.property
  | some i => s!"{s.property}[{i}]"

/-- A character of an encoded property name. -/
def encodeChar (c : Char) : List Char := '-' :: Nat.toDigits 16 c.toNat ++ ['-']

/-- The encoded property name after its first character: letters and digits
stand for themselves. -/
def encodeRest (cs : List Char) : List Char :=
  cs.flatMap fun c => if c.isAlphanum then [c] else encodeChar c

/-- The encoded property name.  A digit in front is encoded like any other
character that is not a letter. -/
def encode : List Char → List Char
  | [] => []
  | c :: cs => (if c.isAlpha then [c] else encodeChar c) ++ encodeRest cs

/-- The identifier form of a step. -/
def identifier (s : Step) : String :=
  let name := String.ofList (encode s.property.toList)
  match s.index with
  | none => name
  | some i => s!"{name}_{i}"

end Path.Step

namespace Path

/-- The readable form of a path that starts at a given place. -/
def text (start : String) (path : Path) : String :=
  ".".intercalate (start :: path.map Step.text)

/-- The identifier form of a path. -/
def identifier (path : Path) : String :=
  "_".intercalate ("root" :: path.map Step.identifier)

end Path

end TypedForest
