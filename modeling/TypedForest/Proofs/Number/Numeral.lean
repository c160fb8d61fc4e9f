import TypedForest.Number.Numeral
import TypedForest.Proofs.Number.Shortest

/-!
# Numerals read back

Writing a number and reading the text gives the number again: the characters of
a numeral determine its parts, and the numeral that a layout chooses for a
decimal has the value of the decimal, wherever the point is placed.

## Main Definitions

* `Numeral.WellFormed`: digits stand where digits belong.

## Main Results

* `Numeral.read?_chars`: the parts of a numeral are read back.
* `Layout.toBinary64_numeral`: so is the number that was laid out.
* `readInt64?_ofInt`, `readBinary64?_chars`: numbers from whole texts.
-/

namespace TypedForest

namespace Numeral

/-- There are digits before the point, and only digits on either side of it. -/
structure WellFormed (n : Numeral) : Prop where
  whole_ne_nil : n.whole ≠ []
  whole_digits : ∀ c ∈ n.whole, c.isDigit = true
  fraction_digits : ∀ c ∈ n.fraction, c.isDigit = true

theorem isDigit_of_mem_toDigits {n : Nat} {c : Char} (h : c ∈ Nat.toDigits 10 n) :
    c.isDigit = true :=
  Nat.isDigit_of_mem_toDigits (by decide) (by decide) h

/-- A sign in front of digits is split off. -/
theorem signed_append (negative : Bool) {c : Char} (cs : List Char) (hc : c.isDigit = true) :
    signed ((if negative then ['-'] else []) ++ c :: cs) = (negative, c :: cs) := by
  cases negative with
  | true => rfl
  | false =>
      show signed (c :: cs) = (false, c :: cs)
      unfold signed
      split
      case h_1 ds heq =>
        obtain ⟨rfl, -⟩ := List.cons.inj heq
        cases hc
      case h_2 ds heq =>
        obtain ⟨rfl, -⟩ := List.cons.inj heq
        cases hc
      case h_3 => rfl

theorem signed_toDigits (negative : Bool) (n : Nat) :
    signed ((if negative then ['-'] else []) ++ Nat.toDigits 10 n) =
      (negative, Nat.toDigits 10 n) := by
  cases hds : Nat.toDigits 10 n with
  | nil => exact absurd hds Nat.toDigits_ne_nil
  | cons c cs =>
      refine signed_append negative cs (isDigit_of_mem_toDigits (n := n) ?_)
      rw [hds]
      exact List.mem_cons_self

theorem natural?_toDigits (n : Nat) : natural? (Nat.toDigits 10 n) = some n := by
  have hall : (Nat.toDigits 10 n).all Char.isDigit = true :=
    List.all_eq_true.mpr fun c hc => isDigit_of_mem_toDigits hc
  simp [natural?, hall, Nat.toDigits_ne_nil, Nat.ofDigitChars_ten_toDigits]

/-- A plus sign that is written on demand is split off like none. -/
theorem signed_exponentSign (plus : Bool) (e : Int) :
    signed ((if e < 0 then ['-'] else if plus then ['+'] else []) ++ Nat.toDigits 10 e.natAbs) =
      (decide (e < 0), Nat.toDigits 10 e.natAbs) := by
  by_cases hneg : e < 0
  · simp [hneg, signed]
  · cases plus with
    | true => simp [hneg, signed]
    | false => simpa [hneg] using signed_toDigits false e.natAbs

/-- An exponent is read back, and so is the lack of one. -/
theorem exponent?_chars (plus : Bool) (e : Option Int) :
    exponent? ((e.map (exponentChars plus)).getD []) = some e := by
  cases e with
  | none => rfl
  | some e =>
      show exponent? (exponentChars plus e) = _
      simp only [exponentChars, exponent?, List.cons_append, true_or, if_true,
        signed_exponentSign, natural?_toDigits]
      show some (some (if decide (e < 0) = true then -(e.natAbs : Int) else e.natAbs)) = _
      rw [Option.some.injEq, Option.some.injEq]
      split
      case isTrue hneg =>
        have hlt := of_decide_eq_true hneg
        omega
      case isFalse hneg =>
        have hle : ¬ e < 0 := fun h => hneg (decide_eq_true h)
        omega

/-- Digits end where a character other than a digit stands. -/
theorem takeWhile_digits {ds rest : List Char} (hds : ∀ c ∈ ds, c.isDigit = true)
    (hrest : ∀ c, rest.head? = some c → c.isDigit = false) :
    (ds ++ rest).takeWhile Char.isDigit = ds ∧ (ds ++ rest).dropWhile Char.isDigit = rest := by
  rw [List.takeWhile_append_of_pos hds, List.dropWhile_append_of_pos hds]
  cases rest with
  | nil => simp
  | cons c rest => simp [hrest c rfl]

theorem head?_exponentChars (plus : Bool) (e : Option Int) {c : Char}
    (h : ((e.map (exponentChars plus)).getD []).head? = some c) : c = 'e' := by
  cases e with
  | none => cases h
  | some e => exact (Option.some.inj h).symm

/-- **The parts of a numeral are read back.** -/
theorem read?_chars {n : Numeral} (hn : n.WellFormed) : read? (n.chars false) = some n := by
  obtain ⟨negative, whole, fraction, exponent⟩ := n
  obtain ⟨hne, hwhole, hfraction⟩ := hn
  obtain ⟨c, whole, rfl⟩ := List.exists_cons_of_ne_nil hne
  have hexp : ∀ d, ((exponent.map (exponentChars false)).getD []).head? = some d →
      d.isDigit = false := by
    intro d hd
    rw [head?_exponentChars false exponent hd]
    decide
  have hc := hwhole c List.mem_cons_self
  cases fraction with
  | nil =>
      obtain ⟨htake, hdrop⟩ := takeWhile_digits hwhole hexp
      have hsigned := signed_append negative
        (whole ++ (exponent.map (exponentChars false)).getD []) hc
      simp only [chars, List.isEmpty_nil, if_true, List.append_nil, List.append_assoc,
        List.cons_append] at htake hdrop hsigned ⊢
      simp only [read?, hsigned, htake, hdrop]
      -- What follows the digits is an exponent, so it does not start with a point.
      split
      case h_1 more hmore =>
        have hhead := head?_exponentChars false exponent (c := '.') (by rw [hmore]; rfl)
        exact absurd hhead (by decide)
      case h_2 =>
        simp [exponent?_chars]
  | cons d fraction =>
      have hpoint : ∀ x, ('.' :: (d :: fraction) ++
          (exponent.map (exponentChars false)).getD []).head? = some x → x.isDigit = false := by
        intro x hx
        obtain rfl := Option.some.inj hx
        decide
      obtain ⟨htake, hdrop⟩ := takeWhile_digits hwhole hpoint
      obtain ⟨htake', hdrop'⟩ := takeWhile_digits hfraction hexp
      have hsigned := signed_append negative (whole ++ ('.' :: (d :: fraction) ++
        (exponent.map (exponentChars false)).getD [])) hc
      simp only [chars, List.isEmpty_cons, Bool.false_eq_true, if_false, List.append_assoc,
        List.cons_append] at htake hdrop htake' hdrop' hsigned ⊢
      simp only [read?, hsigned, htake, hdrop, htake', hdrop', exponent?_chars,
        List.isEmpty_cons, Bool.false_and, Bool.false_eq_true, if_false, Option.map_some]

end Numeral

/-! ### Laying out decimals -/

theorem ofDigitChars_replicate_zero (k n : Nat) :
    Nat.ofDigitChars 10 (List.replicate k '0') n = n * Nat.pow 10 k := by
  induction k generalizing n with
  | zero => simp
  | succ k ih =>
      rw [List.replicate_succ, Nat.ofDigitChars_cons, ih]
      show (10 * n + 0) * Nat.pow 10 k = n * (Nat.pow 10 k * 10)
      rw [Nat.add_zero, Nat.mul_comm 10 n, Nat.mul_assoc, Nat.mul_comm 10]

namespace Layout

variable (layout : Layout) (negative : Bool) (d : Decimal)

/-- A layout writes digits where digits belong. -/
theorem wellFormed_place : (layout.place negative d).WellFormed := by
  have hdigits : ∀ c ∈ Nat.toDigits 10 d.digits, c.isDigit = true :=
    fun c hc => Numeral.isDigit_of_mem_toDigits hc
  have hpos : 0 < (Nat.toDigits 10 d.digits).length := Nat.length_toDigits_pos
  have hzero : '0'.isDigit = true := by decide
  have hzeros : ∀ (k : Nat) (c : Char), c ∈ List.replicate k '0' → c.isDigit = true := by
    intro k c hc
    rw [List.eq_of_mem_replicate hc]
    exact hzero
  have htake : ∀ k, (Nat.toDigits 10 d.digits).take (k + 1) ≠ [] := by
    intro k hnil
    have hlen := congrArg List.length hnil
    simp only [List.length_take, List.length_nil] at hlen
    omega
  unfold place
  simp only
  split
  · split
    · refine ⟨by simp [Nat.toDigits_ne_nil], fun c hc => ?_, by simp [hzero]⟩
      rcases List.mem_append.mp hc with hc | hc
      · exact hdigits c hc
      · exact hzeros _ c hc
    · split
      · exact ⟨htake _, fun c hc => hdigits c (List.mem_of_mem_take hc),
          fun c hc => hdigits c (List.mem_of_mem_drop hc)⟩
      · refine ⟨by simp, by simp [hzero], fun c hc => ?_⟩
        rcases List.mem_append.mp hc with hc | hc
        · exact hzeros _ c hc
        · exact hdigits c hc
  · exact ⟨htake 0, fun c hc => hdigits c (List.mem_of_mem_take hc),
      fun c hc => hdigits c (List.mem_of_mem_drop hc)⟩

theorem wellFormed_numeral (x : Binary64) : (layout.numeral x).WellFormed :=
  layout.wellFormed_place x.negative _

/-- The numeral chosen for a decimal has its value. -/
theorem toBinary64_place :
    (layout.place negative d).toBinary64 = Binary64.ofDecimal negative d.digits d.exponent := by
  have hvalue : Nat.ofDigitChars 10 (Nat.toDigits 10 d.digits) 0 = d.digits :=
    Nat.ofDigitChars_ten_toDigits
  have hpos : 0 < (Nat.toDigits 10 d.digits).length := Nat.length_toDigits_pos
  unfold place Numeral.toBinary64
  simp only
  split
  · split
    case isTrue hexp =>
      -- All zeros are written out, and one more after the point.
      have hmul := Binary64.ofDecimal_mul_pow negative d.digits (d.exponent.toNat + 1) d.exponent
      simp only [Numeral.digits, Numeral.scale, Nat.ofDigitChars_append, hvalue,
        ofDigitChars_replicate_zero]
      rw [← hmul]
      congr 1
      · show 10 * (d.digits * Nat.pow 10 d.exponent.toNat) + 0 =
          d.digits * (Nat.pow 10 d.exponent.toNat * 10)
        rw [Nat.add_zero, Nat.mul_comm 10, Nat.mul_assoc]
      · simp only [Option.getD_none, List.length_singleton]
        omega
    · split
      case isTrue horder =>
        simp only [Numeral.digits, Numeral.scale, List.take_append_drop, hvalue,
          Option.getD_none, List.length_drop]
        congr 1
        omega
      case isFalse horder =>
        simp only [Numeral.digits, Numeral.scale, Nat.ofDigitChars_append,
          ofDigitChars_replicate_zero, Option.getD_none, List.length_append,
          List.length_replicate]
        congr 1
        · show Nat.ofDigitChars 10 (Nat.toDigits 10 d.digits) (0 * _) = _
          rw [Nat.zero_mul, hvalue]
        · omega
  · simp only [Numeral.digits, Numeral.scale, List.take_append_drop, hvalue, Option.getD_some,
      List.length_drop]
    congr 1
    omega

/-- **The numeral of a finite number has the value of the number.** -/
theorem toBinary64_numeral (x : Binary64) (hx : x.isFinite = true) :
    (layout.numeral x).toBinary64 = x := by
  have hfinite : x.magnitude < Binary64.infinite := by simpa [Binary64.isFinite] using hx
  have hback := Binary64.readsBack_shortest layout.tie hfinite
  rw [numeral, toBinary64_place]
  have hnegative := Binary64.negative_ofDecimal x.negative
    (Binary64.shortest layout.tie x.magnitude).digits
    (Binary64.shortest layout.tie x.magnitude).exponent
  have hmagnitude := (Binary64.magnitude_ofDecimal x.negative
    (Binary64.shortest layout.tie x.magnitude).digits
    (Binary64.shortest layout.tie x.magnitude).exponent).trans (eq_of_beq hback)
  generalize Binary64.ofDecimal x.negative _ _ = y at hnegative hmagnitude ⊢
  obtain ⟨negative, magnitude, _⟩ := x
  obtain ⟨negative', magnitude', _⟩ := y
  obtain rfl : negative' = negative := hnegative
  obtain rfl : magnitude' = magnitude := hmagnitude
  rfl

end Layout

/-! ### Numbers from whole texts -/

/-- The text of an integer is read back as far as sixty-four bits hold it. -/
theorem readInt64?_ofInt (i : Int) :
    readInt64? (String.ofList ((Numeral.ofInt i).chars false)) =
      if Int64.minValue.toInt ≤ i ∧ i ≤ Int64.maxValue.toInt then some (Int64.ofInt i)
      else none := by
  have hchars : (Numeral.ofInt i).chars false =
      (if decide (i < 0) then ['-'] else []) ++ Nat.toDigits 10 i.natAbs := by
    simp [Numeral.chars, Numeral.ofInt]
  have hvalue : (if decide (i < 0) = true then -(i.natAbs : Int) else i.natAbs) = i := by
    split
    case isTrue hneg =>
      have hlt := of_decide_eq_true hneg
      omega
    case isFalse hneg =>
      have hle : ¬ i < 0 := fun h => hneg (decide_eq_true h)
      omega
  simp only [readInt64?, String.toList_ofList, hchars, Numeral.signed_toDigits,
    Numeral.natural?_toDigits, hvalue]

theorem readInt64?_chars (i : Int64) :
    readInt64? (String.ofList ((Numeral.ofInt i.toInt).chars false)) = some i := by
  rw [readInt64?_ofInt, if_pos ⟨i.minValue_le_toInt, i.toInt_le⟩, Int64.ofInt_toInt]

theorem toLower_of_isDigit {c : Char} (hc : c.isDigit = true) : c.toLower = c := by
  obtain ⟨-, hle⟩ := Char.isDigit_iff_toNat.mp hc
  have h9 : '9'.toNat = 57 := rfl
  unfold Char.toLower
  split
  case isTrue h =>
    have hA : 65 ≤ c.toNat := UInt32.le_iff_toNat_le.mp h.1
    omega
  case isFalse => rfl

/-- A digit in front rules out the words for infinity and for a NaN. -/
theorem map_toLower_ne {c d : Char} {cs ds : List Char} (hc : c.isDigit = true)
    (hd : d.isDigit = false) : (c :: cs).map Char.toLower ≠ d :: ds := by
  intro h
  obtain ⟨hhead, -⟩ := List.cons.inj h
  rw [toLower_of_isDigit hc] at hhead
  rw [hhead, hd] at hc
  cases hc

/-- The text of a numeral is read as its value. -/
theorem readBinary64?_chars {n : Numeral} (hn : n.WellFormed) :
    readBinary64? (String.ofList (n.chars false)) = some n.toBinary64 := by
  obtain ⟨c, whole, hwhole⟩ := List.exists_cons_of_ne_nil hn.whole_ne_nil
  have hc : c.isDigit = true := hn.whole_digits c (by rw [hwhole]; exact List.mem_cons_self)
  have hchars : n.chars false = (if n.negative then ['-'] else []) ++
      c :: (whole ++ ((if n.fraction.isEmpty then [] else '.' :: n.fraction) ++
        (n.exponent.map (Numeral.exponentChars false)).getD [])) := by
    simp [Numeral.chars, hwhole]
  have hsigned := Numeral.signed_append n.negative (whole ++
    ((if n.fraction.isEmpty then [] else '.' :: n.fraction) ++
      (n.exponent.map (Numeral.exponentChars false)).getD [])) hc
  rw [← hchars] at hsigned
  simp only [readBinary64?, String.toList_ofList, hsigned, Numeral.read?_chars hn, Option.map_some]
  rw [if_neg, if_neg]
  · exact map_toLower_ne hc (by decide)
  · rintro (h | h)
    · exact map_toLower_ne hc (by decide) h
    · exact map_toLower_ne hc (by decide) h

end TypedForest
