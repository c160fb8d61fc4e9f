import TypedForest.Json.Number
import TypedForest.Json.Parser
import TypedForest.Json.Printer

/-!
# Reading typed data from JSON

Readers take a JSON value to the datum it stands for.  A record is read from an
object, whose members come in any order and may include unknown ones, or from
an array that lists exactly its fields in order.  A case of a choice is named
by a string, or by an object with one member that carries its content.

## Main Definitions

* `Json.text?`, `Json.bool?`, `Json.list?`: simple readers.
* `Json.members?`: the members of an object by their texts.
* `Json.record?`: the fields of a record; `required` and `optional` read them.
* `Json.variant?`, `Json.unit?`: the cases of a choice.
* `Json.heightLimit`, `Json.bounded`: values that can be kept before their type
  is known.
-/

namespace TypedForest.Json

/-- A text. -/
def text? : Json → Option String
  | atom (.string s) => Glyph.text? s
  | _ => none

/-- A truth value. -/
def bool? : Json → Option Bool
  | atom (.bool b) => some b
  | _ => none

/-- An array of items. -/
def list? {α : Type} (item : Json → Option α) : Json → Option (List α)
  | array items => items.mapM item
  | _ => none

/-- Null, or an item. -/
def option? {α : Type} (item : Json → Option α) : Json → Option (Option α)
  | atom .null => some none
  | j => (item j).map some

/-- The members of an object, whose keys must all be texts. -/
def members? (members : List (List Glyph × Json)) : Option (List (String × Json)) :=
  members.mapM fun member => (Glyph.text? member.1).map fun key => (key, member.2)

/-- The member of a given name, which may be missing but not repeated. -/
def member? (members : List (String × Json)) (name : String) : Option (Option Json) :=
  match members.filter fun member => member.1 == name with
  | [] => some none
  | [(_, value)] => some (some value)
  | _ => none

/-- The fields of a record, in the order of their names. -/
def record? (names : List String) : Json → Option (List (Option Json))
  | object members => (members? members).bind fun members => names.mapM (member? members)
  | array items => if items.length = names.length then some (items.map some) else none
  | atom _ => none

/-- A field that must be present. -/
def required {α : Type} (item : Json → Option α) (field : Option Json) : Option α :=
  field.bind item

/-- A field that may be missing or null. -/
def optional {α : Type} (item : Json → Option α) : Option Json → Option (Option α)
  | none => some none
  | some j => option? item j

/-- The name of a case and its content, if any. -/
def variant? : Json → Option (String × Option Json)
  | atom (.string s) => (Glyph.text? s).map fun name => (name, none)
  | object [(key, content)] => (Glyph.text? key).map fun name => (name, some content)
  | _ => none

/-- The name of a case without content; null stands for no content. -/
def unit? (j : Json) : Option String :=
  match variant? j with
  | some (name, none) => some name
  | some (name, some (atom .null)) => some name
  | _ => none

/-- How deep a value that is kept before its type is known may be nested, all
around it included. -/
def heightLimit : Nat := 127

/-- Can the atom be kept before its type is known?  Texts must be whole and
numbers finite. -/
def Atom.bounded : Atom → Bool
  | .number n => n.scaled?.isSome
  | .string s => (Glyph.text? s).isSome
  | _ => true

/-- Can the value be kept before its type is known?  Its atoms and keys must
be, and it is nested at most `height` deep. -/
def bounded : Nat → Json → Bool
  | _, atom a => a.bounded
  | 0, _ => false
  | height + 1, array items => items.all (bounded height)
  | height + 1, object members =>
      members.all fun member => (Glyph.text? member.1).isSome && bounded height member.2

end TypedForest.Json
