import TypedForest.Proofs.Value.Wire

/-!
# Spellings

A value has one wire form, but a reader accepts many spellings of it: with a plus sign, with
zeros in front, with an exponent.  Writing what was read puts the normal spelling in the
place of any other, and this happens in one step, since the normal spelling is read as
the same value again.

Integers and floating-point numbers differ in what is lost.  The text of an integer is
read exactly if sixty-four bits hold the integer, and then nothing is lost.  The text of a
floating-point number is always read, since what is too large is read as infinity; but
all NaNs are spelled alike, so that a NaN is read as some NaN only.

## Main Definitions

* `Value.Alike`: the same value, or two NaNs.

## Main Results

* `Value.alike_of_reread`: what is read back is alike, apart from raw attributes.
* `Value.settled_of_read?`: what was read is written in its normal spelling.
* `Value.wire_normal`: wire forms are normal spellings.
-/

namespace TypedForest.Value

variable {v w u : Value} {dataType : DataType} {text : String}

/-- The same value, or a NaN for a NaN. -/
def Alike (v w : Value) : Prop := w = v ∨ v.isNaN = true ∧ w.isNaN = true

/-- Only null has no wire form; all else is written as its text. -/
theorem wire_eq_some (h : v ≠ .null) : v.wire = some v.text := by
  cases v with
  | null => exact absurd rfl h
  | _ => rfl

theorem reread_eq_read? (h : v ≠ .null) : v.reread dataType = read? dataType v.text := by
  rw [reread, wire_eq_some h]

/-- Apart from raw attributes, what is read back is what was written, or a NaN for a NaN. -/
theorem alike_of_reread (h : v.conforms dataType = true) (hraw : dataType ≠ .raw)
    (hw : v.reread dataType = some w) : v.Alike w := by
  by_cases hnan : v.isNaN = true
  · refine .inr ⟨hnan, ?_⟩
    cases v with
    | float x =>
        cases dataType with
        | float =>
            have hread : reread .float (float x) =
                some (float ⟨false, Binary64.quietNaN, Binary64.quietNaN_lt⟩) :=
              congrArg (Option.map float) (readBinary64?_floatText_of_isNaN hnan)
            obtain rfl := Option.some.inj (hread.symm.trans hw)
            decide
        | raw => exact absurd rfl hraw
        | _ => cases h
    | _ => cases hnan
  · have hself := reread_eq_self h hraw hnan
    exact .inl (Option.some.inj (hw.symm.trans hself))

/-- What was read fits the data type, and it is not null. -/
theorem conforms_of_read? (h : read? dataType text = some u) :
    u ≠ .null ∧ u.conforms dataType = true ∧ (dataType = .raw → u = .raw text) := by
  cases dataType with
  | string =>
      obtain rfl := Option.some.inj h
      exact ⟨by simp, rfl, by simp⟩
  | int =>
      obtain ⟨i, -, rfl⟩ := Option.map_eq_some_iff.mp h
      exact ⟨by simp, rfl, by simp⟩
  | float =>
      obtain ⟨x, -, rfl⟩ := Option.map_eq_some_iff.mp h
      exact ⟨by simp, rfl, by simp⟩
  | bool =>
      rw [read?] at h
      split at h
      · obtain rfl := Option.some.inj h
        exact ⟨by simp, rfl, by simp⟩
      · split at h
        · obtain rfl := Option.some.inj h
          exact ⟨by simp, rfl, by simp⟩
        · cases h
  | enum name =>
      obtain rfl := Option.some.inj h
      exact ⟨by simp, beq_self_eq_true name, by simp⟩
  | raw =>
      obtain rfl := Option.some.inj h
      exact ⟨by simp, rfl, fun _ => rfl⟩

/-- **What fits a data type is read back from its wire form.** -/
theorem exists_read?_wire (hnull : v ≠ .null) (h : v.conforms dataType = true) :
    ∃ w v', v.wire = some w ∧ read? dataType w = some v' ∧ v'.conforms dataType = true ∧
      v'.wire = some w ∧ (dataType = .raw → v' = .raw w) ∧ (dataType ≠ .raw → v.Alike v') := by
  obtain ⟨v', hread, hconforms, hwire, -⟩ := exists_reread h
  have hself := wire_eq_some hnull
  refine ⟨v.text, v', hself, ?_, hconforms, hwire.trans hself, ?_, fun hraw => ?_⟩
  · rw [← reread_eq_read? hnull, hread]
  · rintro rfl
    rw [reread_eq_read? hnull] at hread
    exact (Option.some.inj hread).symm
  · exact alike_of_reread h hraw hread

/-- **Writing what was read normalises its spelling in one step.** -/
theorem settled_of_read? (h : read? dataType text = some u) :
    ∃ w u', u.wire = some w ∧ read? dataType w = some u' ∧ u.Alike u' ∧ u'.wire = some w := by
  obtain ⟨hnull, hconforms, hraw⟩ := conforms_of_read? h
  obtain ⟨w, u', hwire, hread, -, hwire', hraw', halike⟩ := exists_read?_wire hnull hconforms
  refine ⟨w, u', hwire, hread, ?_, hwire'⟩
  by_cases hd : dataType = .raw
  · -- A raw attribute reads any text as it stands.
    obtain rfl := hraw hd
    obtain rfl : text = w := Option.some.inj hwire
    exact .inl (hraw' hd)
  · exact halike hd

/-- **Wire forms are normal spellings.**

* A value other than null that fits a data type is read back from its wire form, and what
  is read fits again and has the same wire form.  It is the value itself or a NaN for a NaN;
  under the raw data type it is the wire form as raw text.
* Whatever was read from any text has a wire form, from which it is read again.
* Null alone has no wire form.  The wire form `null` is that of other values.
* The text of an integer is read exactly if it is in the range of sixty-four bits. -/
theorem wire_normal :
    (∀ (dataType : DataType) (v : Value), v ≠ .null → v.conforms dataType = true →
      ∃ w v', v.wire = some w ∧ read? dataType w = some v' ∧ v'.conforms dataType = true ∧
        v'.wire = some w ∧ (dataType = .raw → v' = .raw w) ∧ (dataType ≠ .raw → v.Alike v')) ∧
    (∀ (dataType : DataType) (text : String) (u : Value), read? dataType text = some u →
      ∃ w u', u.wire = some w ∧ read? dataType w = some u' ∧ u.Alike u' ∧ u'.wire = some w) ∧
    (∀ v : Value, (v.wire = none ↔ v = .null) ∧
      (v.wire = some "null" ↔ v.text = "null" ∧ v ≠ .null)) ∧
    ∀ i : Int, read? .int (intText i) =
      if Int64.minValue.toInt ≤ i ∧ i ≤ Int64.maxValue.toInt then some (.int (Int64.ofInt i))
      else none := by
  refine ⟨fun _ _ => exists_read?_wire, fun _ _ _ => settled_of_read?, fun v => ?_, fun i => ?_⟩
  · by_cases hnull : v = .null
    · simp [hnull, wire]
    · simp [hnull, wire_eq_some hnull]
  · rw [read?, intText, readInt64?_ofInt, apply_ite (Option.map int)]
    rfl

/-- Signs, zeros and exponents are gone from the wire form, the text `null` is a value
like any other, and the least integer is the last one that is read. -/
theorem wire_normal_spellings :
    (∃ u w u', read? .float "+0025.0E-1" = some u ∧ u.wire = some w ∧ w = "2.5" ∧
      read? .float w = some u' ∧ u.Alike u') ∧
    (∃ w v', (enum "E" "null").wire = some w ∧ w = "null" ∧ read? (.enum "E") w = some v' ∧
      (enum "E" "null").Alike v') ∧
    read? .int (intText (-9223372036854775808)) = some (.int Int64.minValue) ∧
    read? .int (intText (-9223372036854775809)) = none := by
  obtain ⟨hwrite, hread, hnull, hint⟩ := wire_normal
  have hnumber : read? .float "+0025.0E-1" =
      some (.float (Binary64.ofBits 0x4004000000000000)) := by decide +kernel
  have htext : (Value.float (Binary64.ofBits 0x4004000000000000)).wire = some "2.5" := by
    decide +kernel
  obtain ⟨w, u', hw, hu', halike, -⟩ := hread .float _ _ hnumber
  obtain ⟨w', v', hw', hv', -, -, -, halike'⟩ :=
    hwrite (.enum "E") (.enum "E" "null") (by decide) (by decide)
  have hname := ((hnull (.enum "E" "null")).2.mpr ⟨rfl, by decide⟩)
  refine ⟨⟨_, w, u', hnumber, hw, Option.some.inj (hw.symm.trans htext), hu', halike⟩,
    ⟨w', v', hw', Option.some.inj (hw'.symm.trans hname), hv', halike' (by decide)⟩, ?_, ?_⟩
  · rw [hint, if_pos (by decide)]
    rfl
  · rw [hint, if_neg (by decide)]

end TypedForest.Value
