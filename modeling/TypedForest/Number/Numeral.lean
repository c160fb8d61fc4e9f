import TypedForest.Number.Shortest

/-!
# Numerals

A numeral is the written form of a number: digits before and after a point,
and an exponent.  Numbers are written by choosing a numeral for them (see
`Layout`) and read by evaluating one.

## Main Definitions

* `Numeral`: sign, digits and exponent as they are written.
* `Numeral.chars`: the characters of a numeral.
* `Numeral.read?`: the free grammar of decimal numbers.
* `Layout`, `Layout.numeral`: which numeral a number is written with.
* `readInt64?`, `readBinary64?`: numbers from whole texts.
-/

namespace TypedForest

/-- A decimal number as it is written. -/
structure Numeral where
  /-- Is there a minus sign? -/
  negative : Bool
  /-- The digits before the point. -/
  whole : List Char
  /-- The digits after the point; empty when there is no point. -/
  fraction : List Char := []
  /-- The exponent, when one is written. -/
  exponent : Option Int := none
deriving DecidableEq, Repr

namespace Numeral

/-- The numeral of an integer. -/
def ofInt (i : Int) : Numeral where
  negative := i < 0
  whole := Nat.toDigits 10 i.natAbs

/-- The characters of an exponent.  A plus sign is written only on demand. -/
def exponentChars (plus : Bool) (e : Int) : List Char :=
  let sign := if e < 0 then ['-'] else if plus then ['+'] else []
  'e' :: sign ++ Nat.toDigits 10 e.natAbs

/-- The characters of a numeral. -/
def chars (plus : Bool) (n : Numeral) : List Char :=
  (if n.negative then ['-'] else []) ++ n.whole ++
    (if n.fraction.isEmpty then [] else '.' :: n.fraction) ++
    (n.exponent.map (exponentChars plus)).getD []

/-- Is the numeral written without point and exponent? -/
def isInteger (n : Numeral) : Bool := n.fraction.isEmpty && n.exponent.isNone

/-- The digits of the numeral as one number. -/
def digits (n : Numeral) : Nat := Nat.ofDigitChars 10 (n.whole ++ n.fraction) 0

/-- The power of ten that the digits are multiplied by. -/
def scale (n : Numeral) : Int := n.exponent.getD 0 - n.fraction.length

/-- The number nearest to a numeral. -/
def toBinary64 (n : Numeral) : Binary64 :=
  Binary64.ofDecimal n.negative n.digits n.scale

/-! ### Reading -/

/-- One or more decimal digits and nothing else. -/
def natural? (cs : List Char) : Option Nat :=
  if !cs.isEmpty && cs.all Char.isDigit then some (Nat.ofDigitChars 10 cs 0) else none

/-- Split off a sign; its absence means plus. -/
def signed : List Char → Bool × List Char
  | '-' :: cs => (true, cs)
  | '+' :: cs => (false, cs)
  | cs => (false, cs)

/-- An optional exponent up to the end: a mark, an optional sign and digits. -/
def exponent? : List Char → Option (Option Int)
  | [] => some none
  | c :: cs =>
      if c = 'e' ∨ c = 'E' then
        let (negative, ds) := signed cs
        (natural? ds).map fun e => some (if negative then -e else e)
      else none

/-- The free grammar: an optional sign, digits with an optional point (at least
one digit before or after it) and an optional exponent. -/
def read? (cs : List Char) : Option Numeral :=
  let (negative, cs) := signed cs
  let whole := cs.takeWhile Char.isDigit
  match cs.dropWhile Char.isDigit with
  | '.' :: more =>
      let fraction := more.takeWhile Char.isDigit
      if whole.isEmpty && fraction.isEmpty then none
      else (exponent? (more.dropWhile Char.isDigit)).map
        fun e => ⟨negative, whole, fraction, e⟩
  | rest =>
      if whole.isEmpty then none
      else (exponent? rest).map fun e => ⟨negative, whole, [], e⟩

end Numeral

/-! ### Writing -/

/-- How finite numbers are laid out as numerals. -/
structure Layout where
  /-- The smallest exponent of the leading digit that is written positionally. -/
  lowest : Int
  /-- The largest such exponent. -/
  highest : Int
  /-- Which digits represent a value half way between two decimals. -/
  tie : Tie
deriving DecidableEq, Repr

namespace Layout

/-- Write a decimal.  Positional notation always shows a digit after the point;
scientific notation shows a point only before further digits. -/
def place (layout : Layout) (negative : Bool) (d : Decimal) : Numeral :=
  let ds := Nat.toDigits 10 d.digits
  let order := d.exponent + ds.length - 1
  if layout.lowest ≤ order ∧ order ≤ layout.highest then
    if 0 ≤ d.exponent then
      ⟨negative, ds ++ List.replicate d.exponent.toNat '0', ['0'], none⟩
    else if 0 ≤ order then
      ⟨negative, ds.take (order.toNat + 1), ds.drop (order.toNat + 1), none⟩
    else
      ⟨negative, ['0'], List.replicate (-order - 1).toNat '0' ++ ds, none⟩
  else ⟨negative, ds.take 1, ds.drop 1, some order⟩

/-- The numeral of a finite number: its shortest digits, laid out. -/
def numeral (layout : Layout) (x : Binary64) : Numeral :=
  layout.place x.negative (Binary64.shortest layout.tie x.magnitude)

end Layout

/-! ### Numbers from whole texts -/

/-- A signed 64-bit integer: an optional sign, digits, and in range. -/
def readInt64? (text : String) : Option Int64 :=
  let (negative, ds) := Numeral.signed text.toList
  match Numeral.natural? ds with
  | none => none
  | some n =>
      let i : Int := if negative then -n else n
      if Int64.minValue.toInt ≤ i ∧ i ≤ Int64.maxValue.toInt then some (Int64.ofInt i)
      else none

/-- A binary64 number: an optional sign before `inf`, `infinity` or `nan` in
any case, or a numeral of the free grammar. -/
def readBinary64? (text : String) : Option Binary64 :=
  let (negative, cs) := Numeral.signed text.toList
  let word := cs.map Char.toLower
  if word = "inf".toList ∨ word = "infinity".toList then
    some ⟨negative, Binary64.infinite, Binary64.infinite_lt⟩
  else if word = "nan".toList then some ⟨negative, Binary64.quietNaN, Binary64.quietNaN_lt⟩
  else (Numeral.read? text.toList).map Numeral.toBinary64

end TypedForest
