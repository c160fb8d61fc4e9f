import TypedForest.Number.Shortest

/-!
# Shortest decimals read back

The decimal chosen for a finite magnitude reads back as that magnitude.  For the
decimals on the grids this was tested when they were chosen, and dropping zeros
at the end does not change what a decimal reads as.  The full expansion, which
stands behind the search, reads back because rounding a value that is exact
changes nothing.

## Main Results

* `Binary64.nearest_units`: rounding is exact on finite magnitudes.
* `Binary64.ofDecimal_mul_pow`: zeros at the end do not matter to the reader.
* `Binary64.readsBack_shortest`: shortest decimals read back.

## Design Notes

The two shortcuts of the reader, for very large and very small decimals, look at
the order of magnitude only.  It is the same for a decimal with and without zeros
at the end, so both are read along the same branch.
-/

namespace TypedForest.Binary64

/-! ### Powers

The powers below have four-digit exponents, so they are kept as they are written. -/

theorem pow_pos_of_pos (b k : Nat) (hb : 0 < b) : 0 < Nat.pow b k := Nat.pow_pos hb

theorem mul_pow_lt {n n' i j bound : Nat} (hn : n < n') (h : i ≤ j)
    (hbound : n' * Nat.pow 2 j ≤ bound) : n * Nat.pow 2 i < bound :=
  calc n * Nat.pow 2 i
    _ ≤ n * Nat.pow 2 j := Nat.mul_le_mul_left n (Nat.pow_le_pow_right (by decide) h)
    _ < n' * Nat.pow 2 j := Nat.mul_lt_mul_of_pos_right hn (Nat.pow_pos (by decide))
    _ ≤ bound := hbound

/-- The number of digits of a product, from bounds of its factors. -/
theorem length_toDigits_mul (n a b i j : Nat) (hn : 0 < n) (hlt : n < a) (hi : 0 < i) (hj : 0 < j)
    (hlow : Nat.pow 10 i ≤ b) (hhigh : a * b ≤ Nat.pow 10 j) :
    n * b ≠ 0 ∧ i < (Nat.toDigits 10 (n * b)).length ∧
      (Nat.toDigits 10 (n * b)).length ≤ j := by
  have hb : 0 < b := Nat.lt_of_lt_of_le (pow_pos_of_pos 10 i (by decide)) hlow
  refine ⟨Nat.ne_of_gt (Nat.mul_pos hn hb), ?_, ?_⟩
  · rw [← Nat.not_le, Nat.length_toDigits_le_iff (by decide) hi, Nat.not_lt]
    exact Nat.le_trans hlow (Nat.le_mul_of_pos_left b hn)
  · rw [Nat.length_toDigits_le_iff (by decide) hj]
    exact Nat.lt_of_lt_of_le (Nat.mul_lt_mul_of_pos_right hlt hb) hhigh

/-! ### Rounding -/

/-- Only the ratio matters to rounding. -/
theorem nearest_mul {k : Nat} (hk : 0 < k) (n d : Nat) :
    nearest (k * n) (k * d) = nearest n d := by
  unfold nearest
  have hdouble : ∀ a : Nat, 2 * (k * a) = k * (2 * a) := fun a => Nat.mul_left_comm 2 k a
  simp only [Nat.mul_div_mul_left n d hk, Nat.mul_assoc k d,
    Nat.mul_div_mul_left n _ hk, Nat.mul_mod_mul_left, hdouble, Nat.mul_lt_mul_left hk,
    Nat.mul_right_inj (Nat.ne_of_gt hk)]

theorem nearest_of_ratio {n a b k : Nat} (h : a * b = Nat.pow 10 k) :
    nearest (n * a * b) (Nat.pow 10 k) = nearest n 1 := by
  have hscaled := nearest_mul (pow_pos_of_pos 10 k (by decide)) n 1
  rw [Nat.mul_one] at hscaled
  rw [Nat.mul_assoc, h, Nat.mul_comm n, hscaled]

/-- A whole multiple of the step is not rounded. -/
theorem nearest_of_shift {n e : Nat} (hshift : Nat.log2 (n * Nat.pow 2 e) - 52 = e)
    (hle : e * binade + n ≤ infinite) : nearest (n * Nat.pow 2 e) 1 = e * binade + n := by
  have hpos : 0 < Nat.pow 2 e := Nat.pow_pos (by decide)
  unfold nearest
  simp only [Nat.div_one, Nat.one_mul, hshift, Nat.mul_div_cancel n hpos, Nat.mul_mod_left,
    Nat.mul_zero, hpos, true_or, if_true]
  exact Nat.min_eq_left hle

/-- **Finite magnitudes are exact.** -/
theorem nearest_units {m : Nat} (hm : m < infinite) : nearest (units m) 1 = m := by
  unfold units
  split
  case isTrue hsmall =>
    have hshift : Nat.log2 (m * Nat.pow 2 0) - 52 = 0 := by
      rw [Nat.pow_eq, Nat.pow_zero, Nat.mul_one]
      by_cases hzero : m = 0
      · rw [hzero]
        rfl
      · have hlog : m.log2 < 52 := (Nat.log2_lt hzero).mpr hsmall
        omega
    have h := nearest_of_shift hshift (by omega)
    rwa [Nat.pow_eq, Nat.pow_zero, Nat.mul_one, Nat.zero_mul, Nat.zero_add] at h
  case isFalse hlarge =>
    -- The significand has fifty-three bits, so the shift is that of the binade.
    have hbinade : 0 < binade := by decide
    have hrest : m % binade < binade := Nat.mod_lt m hbinade
    have hdiv : binade * (m / binade) + m % binade = m := Nat.div_add_mod m binade
    have hone : 1 ≤ m / binade := (Nat.one_le_div_iff hbinade).mpr (by omega)
    have hshift : Nat.log2 ((binade + m % binade) * Nat.pow 2 (m / binade - 1)) - 52 =
        m / binade - 1 := by
      have hpos : 0 < Nat.pow 2 (m / binade - 1) := Nat.pow_pos (by decide)
      have hne : (binade + m % binade) * Nat.pow 2 (m / binade - 1) ≠ 0 :=
        Nat.ne_of_gt (Nat.mul_pos (by omega) hpos)
      have hlog : Nat.log2 ((binade + m % binade) * Nat.pow 2 (m / binade - 1)) =
          52 + (m / binade - 1) := by
        rw [Nat.log2_eq_iff hne, Nat.pow_succ, Nat.pow_add]
        refine ⟨Nat.mul_le_mul_right _ (Nat.le_add_right _ _), ?_⟩
        rw [Nat.mul_right_comm]
        exact Nat.mul_lt_mul_of_pos_right (by simp [binade] at hrest ⊢; omega) hpos
      omega
    have hsum : (m / binade - 1) * binade + (binade + m % binade) = m := by
      rw [Nat.sub_mul, Nat.one_mul, Nat.mul_comm (m / binade)]
      have hge : binade ≤ binade * (m / binade) := Nat.le_mul_of_pos_right _ hone
      omega
    rw [nearest_of_shift hshift (by omega), hsum]

/-! ### Reading decimals -/

theorem negative_ofDecimal (negative : Bool) (digits : Nat) (exponent : Int) :
    (ofDecimal negative digits exponent).negative = negative := by
  unfold ofDecimal
  simp only
  split
  · rfl
  · split
    · rfl
    · split <;> rfl

/-- The sign does not matter to the magnitude. -/
theorem magnitude_ofDecimal (negative : Bool) (digits : Nat) (exponent : Int) :
    (ofDecimal negative digits exponent).magnitude =
      (ofDecimal false digits exponent).magnitude := by
  unfold ofDecimal
  simp only
  split
  · rfl
  · split
    · rfl
    · split <;> rfl

/-- Where neither shortcut applies and the exponent is negative, one division is
rounded. -/
theorem ofDecimal_of_neg (negative : Bool) {digits : Nat} {exponent : Int} (hdigits : digits ≠ 0)
    (hneg : exponent < 0) (hlow : -330 ≤ exponent + (Nat.toDigits 10 digits).length)
    (hhigh : exponent + (Nat.toDigits 10 digits).length ≤ 310) :
    ofDecimal negative digits exponent =
      ofUnits negative (digits * one) (Nat.pow 10 (-exponent).toNat) := by
  unfold ofDecimal
  simp only
  rw [if_neg (by omega), if_neg (by omega), if_neg (by omega)]

theorem length_toDigits_mul_ten {n : Nat} (hn : n ≠ 0) :
    (Nat.toDigits 10 (n * 10)).length = (Nat.toDigits 10 n).length + 1 := by
  rw [Nat.toDigits_of_base_le (by decide) (by omega), Nat.mul_div_cancel n (by decide)]
  simp

/-- A zero at the end does not change what is read. -/
theorem ofDecimal_mul_ten (negative : Bool) (digits : Nat) (exponent : Int) :
    ofDecimal negative (digits * 10) (exponent - 1) = ofDecimal negative digits exponent := by
  by_cases hzero : digits = 0
  · simp [ofDecimal, hzero]
  · have hzero' : digits * 10 ≠ 0 := by omega
    have hscale : exponent - 1 + ((Nat.toDigits 10 (digits * 10)).length : Int) =
        exponent + (Nat.toDigits 10 digits).length := by
      rw [length_toDigits_mul_ten hzero]
      omega
    unfold ofDecimal
    simp only [hscale, hzero, hzero', false_or]
    split
    · rfl
    · split
      · rfl
      · -- Either the exponent stays on its side of zero, or it steps below.
        rcases Int.lt_trichotomy exponent 0 with hneg | rfl | hpos
        · rw [if_neg (by omega), if_neg (by omega)]
          have hpow : (-(exponent - 1)).toNat = (-exponent).toNat + 1 := by omega
          rw [ofUnits, ofUnits, mk.injEq]
          refine ⟨rfl, ?_⟩
          have hdenominator : Nat.pow 10 (-(exponent - 1)).toNat =
              10 * Nat.pow 10 (-exponent).toNat := by
            rw [hpow]
            exact Nat.mul_comm _ _
          rw [hdenominator, Nat.mul_comm digits 10, Nat.mul_assoc, nearest_mul (by decide)]
        · rw [if_neg (by omega), if_pos (by omega), ofUnits, ofUnits, mk.injEq]
          refine ⟨rfl, ?_⟩
          show nearest (digits * 10 * one) (10 * 1) = nearest (digits * 1 * one) 1
          rw [Nat.mul_comm digits 10, Nat.mul_assoc, nearest_mul (by decide), Nat.mul_one]
        · rw [if_pos (by omega), if_pos (by omega)]
          have hpow : exponent.toNat = (exponent - 1).toNat + 1 := by omega
          have hnumerator : Nat.pow 10 exponent.toNat = 10 * Nat.pow 10 (exponent - 1).toNat := by
            rw [hpow]
            exact Nat.mul_comm _ _
          rw [hnumerator, Nat.mul_assoc digits 10]

/-- Zeros at the end do not change what is read. -/
theorem ofDecimal_mul_pow (negative : Bool) (digits k : Nat) (exponent : Int) :
    ofDecimal negative (digits * Nat.pow 10 k) (exponent - k) =
      ofDecimal negative digits exponent := by
  induction k with
  | zero => simp
  | succ k ih =>
      have hstep := ofDecimal_mul_ten negative (digits * Nat.pow 10 k) (exponent - k)
      rw [ih, Nat.mul_assoc] at hstep
      rw [← hstep]
      congr 1
      omega

theorem ofDecimal_trim (negative : Bool) (d : Decimal) :
    ofDecimal negative d.trim.digits d.trim.exponent =
      ofDecimal negative d.digits d.exponent := by
  fun_induction Decimal.trim d with
  | case1 d h ih =>
      have hdigits : d.digits / 10 * 10 = d.digits :=
        Nat.div_mul_cancel (Nat.dvd_of_mod_eq_zero h.2)
      have hstep := ofDecimal_mul_ten negative (d.digits / 10) (d.exponent + 1)
      rw [hdigits, Int.add_sub_cancel] at hstep
      rw [ih, hstep]
  | case2 d h => rfl

/-! ### Choosing decimals -/

theorem readsBack_trim {m : Nat} {d : Decimal} (h : readsBack m d = true) :
    readsBack m d.trim = true := by
  rwa [readsBack, ofDecimal_trim]

/-- What is found on a grid reads back. -/
theorem readsBack_onGrid {tie : Tie} {m count : Nat} {d : Decimal}
    (h : onGrid tie m count = some d) : readsBack m d = true := by
  rw [onGrid, Option.map_eq_some_iff] at h
  obtain ⟨c, hc, rfl⟩ := h
  exact readsBack_trim (List.find?_some hc)

theorem units_pos {m : Nat} (hm : m ≠ 0) : 0 < units m := by
  unfold units
  split
  · omega
  · exact Nat.mul_pos (Nat.add_pos_left (by decide) _) (Nat.pow_pos (by decide))

theorem units_lt {m : Nat} (hm : m < infinite) : units m < Nat.pow 2 2098 := by
  have hbinade : 0 < binade := by decide
  unfold units
  split
  case isTrue hsmall => exact Nat.lt_trans hsmall (by decide +kernel)
  case isFalse =>
    have hrest : m % binade < binade := Nat.mod_lt m hbinade
    have hexponent : m / binade < 2047 := (Nat.div_lt_iff_lt_mul hbinade).mpr hm
    have hbound : (binade + binade) * Nat.pow 2 2045 ≤ Nat.pow 2 2098 := by decide +kernel
    exact mul_pow_lt (Nat.add_lt_add_left hrest binade) (by omega) hbound

/-- The full expansion reads back. -/
theorem readsBack_expansion {m : Nat} (hpos : m ≠ 0) (hm : m < infinite) :
    readsBack m (expansion m) = true := by
  refine readsBack_trim ?_
  -- There are between 744 and 1384 digits, so neither shortcut of the reader applies.
  obtain ⟨hzero, hmany, hfew⟩ := length_toDigits_mul (units m) (Nat.pow 2 2098)
    (Nat.pow 5 1074) 743 1384 (units_pos hpos) (units_lt hm) (by decide) (by decide)
    (by decide +kernel) (by decide +kernel)
  have hten : Nat.pow 5 1074 * one = Nat.pow 10 (- -1074 : Int).toNat := by decide +kernel
  generalize Nat.pow 5 1074 = five at hzero hmany hfew hten ⊢
  have hmagnitude : (ofDecimal false (units m * five) (-1074)).magnitude = m := by
    rw [ofDecimal_of_neg false hzero (by decide) (by omega) (by omega)]
    exact (nearest_of_ratio hten).trans (nearest_units hm)
  rw [readsBack, hmagnitude]
  exact beq_self_eq_true m

/-- **The shortest decimal of a finite magnitude reads back.** -/
theorem readsBack_shortest (tie : Tie) {m : Nat} (hm : m < infinite) :
    readsBack m (shortest tie m) = true := by
  unfold shortest
  split
  case isTrue hzero =>
    have hnearest : nearest 0 1 = 0 := nearest_units (m := 0) (by decide)
    simp [hzero, readsBack, ofDecimal, ofUnits, hnearest]
  case isFalse hpos =>
    cases hfound : (List.range 17).findSome? fun i => onGrid tie m (i + 1) with
    | none =>
        rw [Option.getD_none]
        exact readsBack_expansion hpos hm
    | some d =>
        obtain ⟨i, -, hi⟩ := List.exists_of_findSome?_eq_some hfound
        rw [Option.getD_some]
        exact readsBack_onGrid hi

end TypedForest.Binary64
