import TypedForest.Json.Basic

/-!
# Numbers in JSON

JSON numbers are written with the shortest digits that read back.  They are
read in two steps: the leading digits that fit into sixty-four bits make a
significand, which is then scaled by a power of ten in floating-point
arithmetic.  The scaling rounds once more, so a written number is not always
read back to the last bit.

## Main Definitions

* `Json.floatLayout`, `Json.float`: written numbers.
* `Numeral.significand`: the leading digits and their power of ten.
* `Numeral.scaled?`: the number that a JSON numeral is read as.
* `Json.natural?`, `Json.int64?`, `Json.binary64?`: numbers of a given type.
-/

namespace TypedForest

namespace Json

/-- Numbers from `10 ^ (-5)` up to `10 ^ 16` are written positionally, and half
way between two decimals the even one is taken. -/
def floatLayout : Layout := ⟨-5, 15, .toEven⟩

/-- A floating-point number; JSON has no word for an infinity or a NaN. -/
def float (x : Binary64) : Json :=
  if x.isFinite then atom (.number (floatLayout.numeral x)) else null

end Json

namespace Numeral

/-- Append digits to a significand as long as it fits into sixty-four bits.
Returns the significand and the digits that were left. -/
def absorb (significand : Nat) : List Char → Nat × List Char
  | [] => (significand, [])
  | d :: ds =>
      let longer := Nat.ofDigitChars 10 [d] significand
      if longer < UInt64.size then absorb longer ds else (significand, d :: ds)

/-- The leading digits of a numeral that fit into sixty-four bits, and the
power of ten to scale them by.  Digits left before the point count towards the
power, digits left after it are dropped. -/
def significand (n : Numeral) : Nat × Int :=
  let (upper, overflow) := absorb 0 n.whole
  let (full, dropped) := absorb upper n.fraction
  (full, n.exponent.getD 0 + overflow.length - (n.fraction.length - dropped.length))

/-- The magnitude nearest to a power of ten. -/
def powerOfTen (k : Nat) : Nat := (Binary64.ofDecimal false 1 k).magnitude

/-- Scale a magnitude by a power of ten, in steps of at most `10 ^ 308`.  There
is no result when it is not finite. -/
def scaleBy (magnitude : Nat) (e : Int) : Option Nat :=
  if magnitude = 0 then some 0
  else if 0 ≤ e then
    if e ≤ 308 then
      let p := Binary64.product magnitude (powerOfTen e.toNat)
      if p < Binary64.infinite then some p else none
    else none
  else if -308 ≤ e then some (Binary64.quotient magnitude (powerOfTen (-e).toNat))
  else scaleBy (Binary64.quotient magnitude (powerOfTen 308)) (e + 308)
termination_by (-e).toNat
decreasing_by omega

/-- The number that a JSON numeral is read as. -/
def scaled? (n : Numeral) : Option Binary64 :=
  let (digits, e) := n.significand
  match scaleBy (Binary64.nearest (digits * Binary64.one) 1) e with
  | some m => if h : m < Binary64.signBit then some ⟨n.negative, m, h⟩ else none
  | none => none

end Numeral

namespace Json

/-- A natural number below a bound, written without sign, point or exponent. -/
def natural? (bound : Nat) : Json → Option Nat
  | atom (.number n) =>
      if n.isInteger && !n.negative && n.digits < bound then some n.digits else none
  | _ => none

/-- A signed 64-bit integer, written without point or exponent.  A negative
zero is no integer. -/
def int64? : Json → Option Int64
  | atom (.number n) =>
      if !n.isInteger then none
      else if n.negative then
        if 0 < n.digits ∧ Int64.minValue.toInt ≤ -n.digits then some (Int64.ofInt (-n.digits))
        else none
      else if n.digits ≤ Int64.maxValue.toInt then some (Int64.ofInt n.digits)
      else none
  | _ => none

/-- A floating-point number, with or without point and exponent. -/
def binary64? : Json → Option Binary64
  | atom (.number n) => n.scaled?
  | _ => none

end Json

end TypedForest
