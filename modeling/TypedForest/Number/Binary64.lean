/-!
# Binary64 numbers

A binary64 number is a sign and a *magnitude*: the sixty-three bits below the
sign bit, read as one natural number.  Magnitudes are ordered as the numbers
they stand for, the magnitude after the largest finite one is infinity, and
everything above infinity is a NaN.  No operation of the machine's floating
point is used; all arithmetic is on natural numbers and therefore exact.

## Main Definitions

* `Binary64`: sign and magnitude.
* `Binary64.units`: the value of a finite magnitude, counted in the smallest
  positive number `2 ^ (-1074)`.
* `Binary64.nearest`: the magnitude nearest to a ratio, a half going to even.
* `Binary64.ofDecimal`: the number nearest to `digits * 10 ^ exponent`.

## Design Notes

Every finite number is a whole multiple of `2 ^ (-1074)`, so `units` is a
natural number and rounding is one division with remainder.  A carry out of
the significand moves a magnitude into the next binade by itself: adding one
to a magnitude always gives the next larger number.
-/

namespace TypedForest

/-- How many magnitudes share an exponent: `2 ^ 52`. -/
def Binary64.binade : Nat := 0x10000000000000

/-- The value of the sign bit, above all magnitudes: `2 ^ 63`. -/
def Binary64.signBit : Nat := 0x8000000000000000

/-- A number of the IEEE 754 binary64 format, the NaNs included. -/
structure Binary64 where
  /-- The sign bit. -/
  negative : Bool
  /-- Exponent and fraction fields, read as one number. -/
  magnitude : Nat
  /-- Sixty-three bits remain beside the sign. -/
  magnitude_lt : magnitude < Binary64.signBit
deriving DecidableEq, Repr

namespace Binary64

/-- The magnitude of infinity: all exponent bits set, no fraction. -/
def infinite : Nat := 2047 * binade

/-- The magnitude of the NaN that readers produce: the first fraction bit set. -/
def quietNaN : Nat := infinite + 0x8000000000000

theorem infinite_lt : infinite < signBit := by decide

theorem quietNaN_lt : quietNaN < signBit := by decide

/-- A NaN lies above infinity. -/
def isNaN (x : Binary64) : Bool := infinite < x.magnitude

/-- Either infinity. -/
def isInfinite (x : Binary64) : Bool := x.magnitude == infinite

/-- Neither an infinity nor a NaN. -/
def isFinite (x : Binary64) : Bool := x.magnitude < infinite

/-- Equality of numbers: a NaN equals nothing, and the two zeros are equal. -/
def equal (x y : Binary64) : Bool :=
  !x.isNaN && !y.isNaN &&
    (x.magnitude == y.magnitude && (x.negative == y.negative || x.magnitude == 0))

/-! ### Bit patterns -/

/-- Read the sixty-four bits of a number. -/
def ofBits (bits : UInt64) : Binary64 where
  negative := signBit ≤ bits.toNat
  magnitude := bits.toNat % signBit
  magnitude_lt := Nat.mod_lt _ (by decide)

/-- The sixty-four bits of a number. -/
def toBits (x : Binary64) : UInt64 :=
  UInt64.ofNat ((if x.negative then signBit else 0) + x.magnitude)

theorem toNat_toBits (x : Binary64) :
    x.toBits.toNat = (if x.negative then signBit else 0) + x.magnitude := by
  have small := x.magnitude_lt
  have bound : (if x.negative then signBit else 0) + x.magnitude < UInt64.size := by
    cases x.negative <;> simp [signBit, UInt64.size] at small ⊢ <;> omega
  exact UInt64.toNat_ofNat_of_lt bound

/-- A number is determined by its bits. -/
@[simp] theorem ofBits_toBits (x : Binary64) : ofBits x.toBits = x := by
  have bits := toNat_toBits x
  obtain ⟨negative, magnitude, small⟩ := x
  simp only [ofBits, bits, mk.injEq]
  cases negative <;> simp [signBit] at small ⊢ <;> omega

/-! ### Values -/

/-- How many times the smallest positive number a finite magnitude is. -/
def units (magnitude : Nat) : Nat :=
  if magnitude < binade then magnitude
  else (binade + magnitude % binade) * Nat.pow 2 (magnitude / binade - 1)

/-- One, counted in units. -/
def one : Nat := Nat.pow 2 1074

/-- The magnitude nearest to `n / d` units.  Half way between two magnitudes
the even one is taken, and what would exceed the largest finite magnitude is
infinite. -/
def nearest (n d : Nat) : Nat :=
  let shift := Nat.log2 (n / d) - 52
  let step := d * Nat.pow 2 shift
  let below := n / step
  let rest := n % step
  let rounded :=
    if 2 * rest < step ∨ (2 * rest = step ∧ below % 2 = 0) then below else below + 1
  min (shift * binade + rounded) infinite

theorem nearest_lt (n d : Nat) : nearest n d < signBit :=
  Nat.lt_of_le_of_lt (Nat.min_le_right _ _) infinite_lt

/-- The number of a sign that is nearest to `n / d` units. -/
def ofUnits (negative : Bool) (n d : Nat) : Binary64 :=
  ⟨negative, nearest n d, nearest_lt n d⟩

/-- The number nearest to `digits * 10 ^ exponent`.

A decimal above `10 ^ 310` is infinite and one below `10 ^ (-330)` is zero;
answering these first keeps the powers of ten below small. -/
def ofDecimal (negative : Bool) (digits : Nat) (exponent : Int) : Binary64 :=
  let scale := exponent + (Nat.toDigits 10 digits).length
  if digits = 0 ∨ scale < -330 then ofUnits negative 0 1
  else if 310 < scale then ⟨negative, infinite, infinite_lt⟩
  else if 0 ≤ exponent then ofUnits negative (digits * Nat.pow 10 exponent.toNat * one) 1
  else ofUnits negative (digits * one) (Nat.pow 10 (-exponent).toNat)

/-- The product of two finite magnitudes, rounded. -/
def product (x y : Nat) : Nat := nearest (units x * units y) one

/-- The quotient of two finite magnitudes, rounded; the divisor is not zero. -/
def quotient (x y : Nat) : Nat := nearest (units x * one) (units y)

end Binary64

end TypedForest
