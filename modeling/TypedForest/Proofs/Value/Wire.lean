import TypedForest.Forest.Edit
import TypedForest.Proofs.Number.Numeral

/-!
# Wire forms

Every value but null has a wire form, and a value that an attribute may take is
read back from it under the data type of the attribute.  What is read may differ
from what was written: a raw attribute reads raw text whatever it held, and there
is one NaN for all of them.  But it is accepted by the attribute again, and its
wire form is the same text.

## Main Definitions

* `Value.reread`: what is read back from the wire form of a value.
* `Value.isNaN`: the values that are changed even though they fit their data type.

## Main Results

* `Value.reread_eq_self`: what is read back is what was written, apart from raw
  attributes and NaNs.
* `Value.exists_reread`: values that fit a data type are read back under it.
* `Forest.exists_reread`: what an attribute accepts is read back, accepted again and
  written in the same way.
-/

namespace TypedForest

namespace Value

/-- The value that is read back from the wire form, under a data type.  Null has no
wire form and stays null. -/
def reread (dataType : DataType) (v : Value) : Option Value :=
  match v.wire with
  | none => some .null
  | some text => read? dataType text

/-- Is the value a NaN? -/
def isNaN : Value → Bool
  | float x => x.isNaN
  | _ => false

theorem readBinary64?_infinity : ∀ negative : Bool,
    readBinary64? ((if negative then "-" else "") ++ "Infinity") =
      some ⟨negative, Binary64.infinite, Binary64.infinite_lt⟩ := by
  decide

/-- All NaNs have one text, and one of them is read back from it. -/
theorem readBinary64?_floatText_of_isNaN {x : Binary64} (h : x.isNaN = true) :
    readBinary64? (floatText "Infinity" x) =
      some ⟨false, Binary64.quietNaN, Binary64.quietNaN_lt⟩ := by
  rw [floatText, if_pos h]
  decide

/-- The text of any other number is read back as that number. -/
theorem readBinary64?_floatText_of_not_isNaN {x : Binary64} (h : ¬ x.isNaN = true) :
    readBinary64? (floatText "Infinity" x) = some x := by
  by_cases hinf : x.isInfinite = true
  · rw [floatText, if_neg h, if_pos hinf]
    obtain ⟨negative, magnitude, hlt⟩ := x
    obtain rfl : magnitude = Binary64.infinite := eq_of_beq hinf
    exact readBinary64?_infinity negative
  · have hfinite : x.isFinite = true := by
      simp only [Binary64.isNaN, Binary64.isInfinite, Binary64.isFinite, decide_eq_true_eq,
        beq_iff_eq] at h hinf ⊢
      omega
    rw [floatText, if_neg h, if_neg hinf, readBinary64?_chars (floatLayout.wellFormed_numeral x),
      floatLayout.toBinary64_numeral x hfinite]

/-- Under any data type but the raw one, all values but the NaNs are read back as they
were. -/
theorem reread_eq_self {v : Value} {dataType : DataType} (h : v.conforms dataType = true)
    (hraw : dataType ≠ .raw) (hnan : ¬ v.isNaN = true) : v.reread dataType = some v := by
  cases v with
  | null => rfl
  | bool b =>
      cases dataType with
      | bool => cases b <;> decide
      | raw => exact absurd rfl hraw
      | _ => cases h
  | int i =>
      cases dataType with
      | int =>
          show (readInt64? (intText i.toInt)).map int = _
          rw [intText, readInt64?_chars, Option.map_some]
      | raw => exact absurd rfl hraw
      | _ => cases h
  | float x =>
      cases dataType with
      | float =>
          show (readBinary64? (floatText "Infinity" x)).map float = _
          rw [readBinary64?_floatText_of_not_isNaN hnan, Option.map_some]
      | raw => exact absurd rfl hraw
      | _ => cases h
  | string s =>
      cases dataType with
      | string => rfl
      | raw => exact absurd rfl hraw
      | _ => cases h
  | enum enumeration literal =>
      cases dataType with
      | enum name =>
          obtain rfl : enumeration = name := eq_of_beq h
          rfl
      | raw => exact absurd rfl hraw
      | _ => cases h
  | raw s =>
      cases dataType with
      | raw => exact absurd rfl hraw
      | _ => cases h

/-- The raw data type reads raw text, whatever was written. -/
theorem reread_raw (v : Value) :
    v.reread .raw = some (if v = .null then .null else .raw v.text) := by
  cases v <;> rfl

/-- **Values that fit a data type are read back under it, and their wire forms are
stable.**  A literal is read back as it was. -/
theorem exists_reread {v : Value} {dataType : DataType} (h : v.conforms dataType = true) :
    ∃ w, v.reread dataType = some w ∧ w.conforms dataType = true ∧ w.wire = v.wire ∧
      ∀ name literal, w = .enum name literal → w = v := by
  by_cases hraw : dataType = .raw
  · subst hraw
    refine ⟨_, reread_raw v, ?_⟩
    cases v with
    | null => exact ⟨rfl, rfl, nofun⟩
    | _ => exact ⟨rfl, rfl, nofun⟩
  by_cases hnan : v.isNaN = true
  · cases v with
    | float x =>
        have hx : x.isNaN = true := hnan
        cases dataType with
        | float =>
            refine ⟨.float ⟨false, Binary64.quietNaN, Binary64.quietNaN_lt⟩, ?_, rfl, ?_, nofun⟩
            · show (readBinary64? (floatText "Infinity" x)).map float = _
              rw [readBinary64?_floatText_of_isNaN hx, Option.map_some]
            · show some (floatText _ _) = some (floatText _ x)
              rw [floatText, floatText, if_pos hx, if_pos (by decide)]
        | raw => exact absurd rfl hraw
        | _ => cases h
    | _ => cases hnan
  · exact ⟨v, reread_eq_self h hraw hnan, h, rfl, fun _ _ _ => rfl⟩

end Value

namespace Forest

variable {f : Forest} {p : Property} {v : Value}

theorem conforms_of_checkValue (h : f.checkValue p v = .ok ()) :
    v.conforms p.valueType = true := by
  unfold checkValue at h
  split at h
  case isTrue hconforms => exact hconforms
  case isFalse => cases h

/-- Only literals are checked beyond their data type. -/
theorem checkValue_of_conforms (h : v.conforms p.valueType = true)
    (hliteral : ∀ name literal, v ≠ .enum name literal) : f.checkValue p v = .ok () := by
  unfold checkValue
  rw [if_pos h]
  split
  case h_1 enumeration literal _ _ => exact absurd rfl (hliteral enumeration literal)
  case h_2 => rfl

/-- **What is read back is accepted again.** -/
theorem exists_reread (h : f.checkValue p v = .ok ()) :
    ∃ w, v.reread p.valueType = some w ∧ f.checkValue p w = .ok () ∧ w.wire = v.wire := by
  obtain ⟨w, hread, hconforms, hwire, hliteral⟩ :=
    Value.exists_reread (conforms_of_checkValue h)
  refine ⟨w, hread, ?_, hwire⟩
  by_cases hsame : w = v
  · rw [hsame, h]
  · exact checkValue_of_conforms hconforms fun name literal heq =>
      hsame (hliteral name literal heq)

end Forest

end TypedForest
