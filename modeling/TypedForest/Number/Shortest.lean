import TypedForest.Number.Binary64

/-!
# Shortest decimals

The text of a number uses the fewest significant digits that still read back
as the same number.  For one digit, two digits and so on, the two neighbours
of the number on the grid of decimals of that many digits are read back; the
first grid with a hit wins, and of two hits the nearer one.

## Main Definitions

* `Decimal`: a natural number times a power of ten.
* `Tie`: which neighbour to take half way between two.
* `Binary64.shortest`: the shortest decimal of a finite magnitude.

## Design Notes

Whether a candidate reads back is decided by the reader itself
(`Binary64.ofDecimal`), so no interval of rounding has to be computed and the
chosen decimal reads back by construction.  Seventeen digits always suffice;
the full expansion stands behind the search to keep the function total.
-/

namespace TypedForest

/-- The decimal number `digits * 10 ^ exponent`. -/
structure Decimal where
  digits : Nat
  exponent : Int
deriving DecidableEq, Repr

/-- Which of two neighbours represents the value half way between them. -/
inductive Tie where
  /-- The larger one. -/
  | up
  /-- The one whose last digit is even. -/
  | toEven
deriving DecidableEq, Repr

namespace Decimal

/-- The same number without trailing zeros. -/
def trim (d : Decimal) : Decimal :=
  if d.digits ≠ 0 ∧ d.digits % 10 = 0 then trim ⟨d.digits / 10, d.exponent + 1⟩ else d
termination_by d.digits
decreasing_by omega

end Decimal

namespace Binary64

/-- The exponent `k` with `10 ^ k ≤ n / d < 10 ^ (k + 1)`, for positive `n`
and `d`. -/
def decimalOrder (n d : Nat) : Int :=
  if d ≤ n then (Nat.toDigits 10 (n / d)).length - 1
  else -((Nat.toDigits 10 ((d - 1) / n)).length : Int)

/-- Does the decimal read back as the finite magnitude? -/
def readsBack (magnitude : Nat) (d : Decimal) : Bool :=
  (ofDecimal false d.digits d.exponent).magnitude == magnitude

/-- The nearest decimal with `count` significant digits that reads back as the
magnitude, if there is one. -/
def onGrid (tie : Tie) (magnitude count : Nat) : Option Decimal :=
  let exponent := decimalOrder (units magnitude) one - (count : Int) + 1
  let n := units magnitude * Nat.pow 10 (-exponent).toNat
  let d := one * Nat.pow 10 exponent.toNat
  let low : Decimal := ⟨n / d, exponent⟩
  let high : Decimal := ⟨n / d + 1, exponent⟩
  let rest := n % d
  let lowFirst := 2 * rest < d ∨ (2 * rest = d ∧ tie = .toEven ∧ low.digits % 2 = 0)
  let candidates := if lowFirst then [low, high] else [high, low]
  (candidates.find? (readsBack magnitude)).map Decimal.trim

/-- Every digit of a finite magnitude. -/
def expansion (magnitude : Nat) : Decimal :=
  Decimal.trim ⟨units magnitude * Nat.pow 5 1074, -1074⟩

/-- The shortest decimal that reads back as a finite magnitude. -/
def shortest (tie : Tie) (magnitude : Nat) : Decimal :=
  if magnitude = 0 then ⟨0, 0⟩
  else
    ((List.range 17).findSome? fun i => onGrid tie magnitude (i + 1)).getD
      (expansion magnitude)

end Binary64

end TypedForest
