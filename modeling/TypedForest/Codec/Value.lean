import TypedForest.Json.Reader
import TypedForest.Value

/-!
# Values in JSON

A value is written as its kind and its content, `"type"` before `"value"`.  It is
read with the two in any order, or from an array of the two.  In an array the
kind is a text; under `"type"` it may be any variant without content.

## Main Definitions

* `DataType.toJson`, `DataType.ofJson?`
* `Value.toJson`, `Value.ofJsonAt?`, `Value.ofJson?`

## Design Notes

When the content comes before the kind, it has to be kept until the kind is
known.  Everything in it must then be bounded, parts that turn out not to be
needed included, and it may not be nested too deep, counted from the outermost
value.  The readers of values and of what values are part of therefore take the
`level` at which they stand.  Content that comes after the kind is read at once,
and what is not needed is merely skipped.
-/

namespace TypedForest

namespace DataType

/-- A data type in JSON. -/
def toJson : DataType → Json
  | string => .text "String"
  | int => .text "Int"
  | float => .text "Float"
  | bool => .text "Bool"
  | enum name => .record [("Enum", .text name)]
  | raw => .text "Opaque"

/-- Read a data type. -/
def ofJson? (j : Json) : Option DataType :=
  match j.variant? with
  | some ("Enum", some content) => content.text?.map enum
  | _ =>
      match j.unit? with
      | some "String" => some string
      | some "Int" => some int
      | some "Float" => some float
      | some "Bool" => some bool
      | some "Opaque" => some raw
      | _ => none

end DataType

namespace Value

/-- The names of the kinds of values. -/
def tag : Value → String
  | null => "Null"
  | bool _ => "Bool"
  | int _ => "Int"
  | float _ => "Float"
  | string _ => "String"
  | enum _ _ => "Enum"
  | raw _ => "Opaque"

/-- The content of a value; null has none. -/
def content : Value → Option Json
  | null => none
  | bool b => some (.bool b)
  | int i => some (.int i.toInt)
  | float x => some (.float x)
  | string s => some (.text s)
  | enum enumeration literal =>
      some (.record [("enumeration", .text enumeration), ("literal", .text literal)])
  | raw s => some (.text s)

/-- A value in JSON. -/
def toJson (v : Value) : Json :=
  .record (("type", .text v.tag) :: v.content.toList.map fun c => ("value", c))

/-- Read a value of a given kind from its content. -/
def ofContent? (tag : String) (content : Json) : Option Value :=
  match tag with
  | "Null" => match content with
      | .atom .null => some null
      | _ => none
  | "Bool" => content.bool?.map bool
  | "Int" => content.int64?.map int
  | "Float" => content.binary64?.map float
  | "String" => content.text?.map string
  | "Enum" => match content with
      | .object _ => do
          let [enumeration, literal] ← content.record? ["enumeration", "literal"] | none
          let enumeration ← Json.required Json.text? enumeration
          let literal ← Json.required Json.text? literal
          return enum enumeration literal
      | _ => none
  | "Opaque" => content.text?.map raw
  | _ => none

/-- Read a value that stands inside `level` arrays and objects. -/
def ofJsonAt? (level : Nat) : Json → Option Value
  | .array [kind, content] => kind.text?.bind fun tag => ofContent? tag content
  | .object members => do
      let members ← Json.members? members
      let kind ← Json.member? members "type"
      let content ← Json.member? members "value"
      let tag ← kind.bind Json.unit?
      match content with
      | none => if tag = "Null" then some null else none
      | some content =>
          let first := (members.map Prod.fst).find? fun key => key == "type" || key == "value"
          if first == some "value" && !content.bounded (Json.heightLimit - (level + 1)) then none
          else ofContent? tag content
  | _ => none

/-- Read a value. -/
def ofJson? (j : Json) : Option Value := ofJsonAt? 0 j

end Value

end TypedForest
