import TypedForest.Number.Numeral
import TypedForest.Text.Quoted

/-!
# Attribute values

An attribute of a node holds a value: a scalar, a literal of an enumeration, or
text that is passed on untouched.  Every attribute may also be null.  A data
type says which values an attribute takes, and every value but null has a wire
form from which it can be read again under its data type.

## Main Definitions

* `DataType`, `Value`: declared types and the values themselves.
* `Value.conforms`: which values fit a data type.
* `Value.wire`, `Value.read?`: the wire form and its reader.
* `Value.inspect`: the detailed form used in messages.
* `Value.equal`: equality of contents, by which a NaN differs from itself.

## Design Notes

Null has no wire form, so the text `null` is never confused with it.  Raw
attributes accept values of every kind but are always read back as raw text.
Two values are *identical* when they are equal as terms; `Value.equal` is the
coarser and partly irreflexive comparison of their contents.
-/

namespace TypedForest

/-- The declared type of an attribute. -/
inductive DataType where
  | string
  | int
  | float
  | bool
  /-- The literals of one enumeration. -/
  | enum (name : String)
  /-- Text without further structure. -/
  | raw
deriving DecidableEq, Repr

/-- The value of an attribute. -/
inductive Value where
  | null
  | bool (b : Bool)
  | int (i : Int64)
  | float (x : Binary64)
  | string (s : String)
  /-- A literal of an enumeration. -/
  | enum (enumeration literal : String)
  /-- Text without further structure. -/
  | raw (s : String)
deriving DecidableEq, Repr

namespace DataType

/-- The name of a data type in messages. -/
def inspect : DataType → String
  | string => "String"
  | int => "Int"
  | float => "Float"
  | bool => "Bool"
  | enum name => "Enum(" ++ Text.quote name ++ ")"
  | raw => "Opaque"

end DataType

namespace Value

/-- The name of the kind of a value in messages. -/
def typeName : Value → String
  | null => "NULL"
  | bool _ => "BOOLEAN"
  | int _ => "INTEGER"
  | float _ => "FLOAT"
  | string _ => "STRING"
  | enum _ _ => "ENUM"
  | raw _ => "OPAQUE"

/-- Is the value null? -/
def isNull : Value → Bool
  | null => true
  | _ => false

/-- The integer held by a value. -/
def int? : Value → Option Int64
  | int i => some i
  | _ => none

/-- The text held by a value; an enumeration value holds its literal. -/
def text? : Value → Option String
  | string s => some s
  | raw s => some s
  | enum _ literal => some literal
  | _ => none

/-- Which values fit a data type.  Null fits all of them, and everything fits a
raw attribute.  Whether a literal belongs to its enumeration is a question to
the metamodel. -/
def conforms : Value → DataType → Bool
  | null, _ => true
  | _, .raw => true
  | bool _, .bool => true
  | int _, .int => true
  | float _, .float => true
  | string _, .string => true
  | enum enumeration _, .enum name => enumeration == name
  | _, _ => false

/-- Equality of contents: floating-point numbers compare as numbers, all else
as it stands. -/
def equal : Value → Value → Bool
  | float x, float y => x.equal y
  | v, w => v == w

/-! ### Text -/

/-- Numbers from `10 ^ (-4)` up to `10 ^ 16` are written positionally, and half
way between two decimals the larger one is taken. -/
def floatLayout : Layout := ⟨-4, 15, .up⟩

/-- The text of a number, with a given word for infinity. -/
def floatText (infinity : String) (x : Binary64) : String :=
  if x.isNaN then "NaN"
  else if x.isInfinite then (if x.negative then "-" else "") ++ infinity
  else String.ofList ((floatLayout.numeral x).chars false)

/-- The text of an integer. -/
def intText (i : Int) : String := String.ofList ((Numeral.ofInt i).chars false)

/-- The text of a truth value. -/
def boolText (b : Bool) : String := if b then "true" else "false"

/-- The plain text of a value. -/
def text : Value → String
  | null => "null"
  | bool b => boolText b
  | int i => intText i.toInt
  | float x => floatText "Infinity" x
  | string s => s
  | enum _ literal => literal
  | raw s => s

/-- The wire form of a value; null has none. -/
def wire : Value → Option String
  | null => none
  | v => some v.text

/-- Read a wire form under a data type.  Any text is a literal of an
enumeration as far as reading goes. -/
def read? (dataType : DataType) (s : String) : Option Value :=
  match dataType with
  | .string => some (string s)
  | .int => (readInt64? s).map int
  | .float => (readBinary64? s).map float
  | .bool =>
      if s = "true" then some (bool true)
      else if s = "false" then some (bool false)
      else none
  | .enum name => some (enum name s)
  | .raw => some (raw s)

/-- The detailed form of a value: its kind and its quoted content. -/
def inspect : Value → String
  | null => "Null"
  | bool b => "Bool(" ++ boolText b ++ ")"
  | int i => "Int(" ++ intText i.toInt ++ ")"
  | float x => "Float(" ++ floatText "inf" x ++ ")"
  | string s => "String(" ++ Text.quote s ++ ")"
  | enum enumeration literal =>
      "Enum \x7b enumeration: " ++ Text.quote enumeration ++ ", literal: " ++
        Text.quote literal ++ " \x7d"
  | raw s => "Opaque(" ++ Text.quote s ++ ")"

end Value

end TypedForest
