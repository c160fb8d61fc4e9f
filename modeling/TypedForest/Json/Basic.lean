import TypedForest.Number.Numeral

/-!
# JSON values

JSON values as they are written: members keep their order and their
repetitions, numbers keep their digits, and a string may hold half of a
surrogate pair, which an escape can spell although no text contains it.  What a
reader makes of these is decided where the value is used.

## Main Definitions

* `Glyph`: an element of a JSON string.
* `Json.Atom`: null, truth values, numbers and strings.
* `Json`: atoms, arrays and objects.
* `Glyph.text?`: the text that a JSON string spells, if it spells one.
-/

namespace TypedForest

/-- An element of a JSON string. -/
inductive Glyph where
  /-- A character. -/
  | char (c : Char)
  /-- A surrogate code unit that an escape wrote without its partner. -/
  | unpaired (unit : Nat)
deriving DecidableEq, Repr

namespace Glyph

/-- The glyphs of a text. -/
def ofText (s : String) : List Glyph := s.toList.map char

/-- The character of a glyph. -/
def char? : Glyph → Option Char
  | char c => some c
  | unpaired _ => none

/-- The text of a list of glyphs, none of which is unpaired. -/
def text? (gs : List Glyph) : Option String := (gs.mapM char?).map String.ofList

/-- A text is spelled by its own glyphs. -/
@[simp] theorem text?_ofText (s : String) : text? (ofText s) = some s := by
  have chars : ∀ cs : List Char, (cs.map char).mapM char? = some cs := by
    intro cs
    induction cs with
    | nil => rfl
    | cons c cs ih => simp [List.mapM_cons, char?, ih]
  simp [text?, ofText, chars]

/-- Is the code unit the first half of a surrogate pair? -/
def isLeading (unit : Nat) : Bool := 0xd800 ≤ unit && unit ≤ 0xdbff

/-- Is the code unit the second half of a surrogate pair? -/
def isTrailing (unit : Nat) : Bool := 0xdc00 ≤ unit && unit ≤ 0xdfff

/-- The character of a surrogate pair. -/
def paired (leading trailing : Nat) : Char :=
  Char.ofNat (0x10000 + (leading - 0xd800) * 0x400 + (trailing - 0xdc00))

/-- Add an escaped code unit to the glyphs read so far, latest first.  A
trailing half completes a leading half that stands directly before it. -/
def push (unit : Nat) (seen : List Glyph) : List Glyph :=
  if isLeading unit then unpaired unit :: seen
  else if isTrailing unit then
    match seen with
    | unpaired leading :: before =>
        if isLeading leading then char (paired leading unit) :: before
        else unpaired unit :: seen
    | _ => unpaired unit :: seen
  else char (Char.ofNat unit) :: seen

end Glyph

/-- A JSON value without parts. -/
inductive Json.Atom where
  | null
  | bool (b : Bool)
  | number (n : Numeral)
  | string (s : List Glyph)
deriving DecidableEq, Repr

/-- A JSON value. -/
inductive Json where
  | atom (a : Json.Atom)
  | array (items : List Json)
  | object (members : List (List Glyph × Json))

namespace Json

/-- The null value. -/
def null : Json := atom .null

/-- A truth value. -/
def bool (b : Bool) : Json := atom (.bool b)

/-- An integer. -/
def int (i : Int) : Json := atom (.number (.ofInt i))

/-- A text. -/
def text (s : String) : Json := atom (.string (Glyph.ofText s))

/-- An object with the given members, in order. -/
def record (members : List (String × Json)) : Json :=
  object (members.map fun member => (Glyph.ofText member.1, member.2))

/-- Null for an absent item. -/
def option {α : Type} (item : α → Json) : Option α → Json
  | none => null
  | some a => item a

/-- An array of items. -/
def list {α : Type} (item : α → Json) (items : List α) : Json :=
  array (items.map item)

end Json

end TypedForest
