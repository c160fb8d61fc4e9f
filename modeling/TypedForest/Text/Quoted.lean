import TypedForest.Text.Printable

/-!
# Quoted text

Texts inside messages are quoted so that every character can be told apart:
quotes and backslashes are escaped, a few control characters have short names,
and every other unprintable character is written by its code point.

## Main Definitions

* `escape`: the quoted form of one character.
* `quote`: the quoted form of a text.
* `option`: the written form of an optional item.
-/

namespace TypedForest.Text

/-- The hexadecimal digits of a number, in lower case. -/
def hex (n : Nat) : String := String.ofList (Nat.toDigits 16 n)

/-- The quoted form of one character. -/
def escape (c : Char) : String :=
  if c = '"' then "\\\""
  else if c = '\\' then "\\\\"
  else if c = '\t' then "\\t"
  else if c = '\n' then "\\n"
  else if c = '\r' then "\\r"
  else if c = '\x00' then "\\0"
  else if isPrintable c then c.toString
  else "\\u\x7b" ++ hex c.toNat ++ "\x7d"

/-- A text between quotes, each character escaped where needed. -/
def quote (s : String) : String :=
  "\"" ++ String.join (s.toList.map escape) ++ "\""

/-- An optional item, with its presence written out. -/
def option {α : Type} (item : α → String) : Option α → String
  | none => "None"
  | some a => "Some(" ++ item a ++ ")"

end TypedForest.Text
