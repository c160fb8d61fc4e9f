import TypedForest.Proofs.Value.Wire

/-!
# Equality of contents

Values are equal when their contents are.  This is coarser than identity, since the two
zeros are equal, and it is not reflexive, since a NaN equals nothing.  Symmetry and
transitivity hold.

A value that was written and read again equals what it was, with two exceptions.  One
is the NaN.  The other is a raw attribute that held something other than raw text: it
reads raw text, which is equal to raw text only.

## Main Results

* `Value.equal_symm`, `Value.equal_trans`: the laws of equality.
* `Value.equal_reread_iff`: which values are equal to what is read back from them.
-/

namespace TypedForest

namespace Binary64

variable {x y z : Binary64}

theorem equal_iff :
    x.equal y = true ↔ x.isNaN = false ∧ y.isNaN = false ∧ x.magnitude = y.magnitude ∧
      (x.negative = y.negative ∨ x.magnitude = 0) := by
  simp [equal, and_assoc]

theorem equal_self_iff : x.equal x = true ↔ x.isNaN = false := by
  simp [equal_iff]

theorem equal_symm (h : x.equal y = true) : y.equal x = true := by
  obtain ⟨hx, hy, hmagnitude, hsign⟩ := equal_iff.mp h
  exact equal_iff.mpr ⟨hy, hx, hmagnitude.symm, hsign.imp Eq.symm hmagnitude.symm.trans⟩

theorem equal_trans (hxy : x.equal y = true) (hyz : y.equal z = true) : x.equal z = true := by
  obtain ⟨hx, -, hmagnitude, hsign⟩ := equal_iff.mp hxy
  obtain ⟨-, hz, hmagnitude', hsign'⟩ := equal_iff.mp hyz
  refine equal_iff.mpr ⟨hx, hz, hmagnitude.trans hmagnitude', ?_⟩
  rcases hsign with hsign | hzero
  · exact hsign'.imp hsign.trans hmagnitude.trans
  · exact .inr hzero

end Binary64

namespace Value

variable {u v w : Value} {dataType : DataType}

/-- Is the value raw text? -/
def isRaw : Value → Bool
  | raw _ => true
  | _ => false

/-- Numbers are compared as numbers, and all else is equal only to itself. -/
theorem equal_iff :
    v.equal w = true ↔
      (∃ x y, v = .float x ∧ w = .float y ∧ x.equal y = true) ∨
        v = w ∧ ∀ x, v ≠ .float x := by
  cases v <;> cases w <;> simp [equal]

/-- Only a NaN differs from itself. -/
theorem equal_self_iff : v.equal v = true ↔ v.isNaN = false := by
  cases v <;> simp [equal, isNaN, Binary64.equal_self_iff]

theorem equal_symm (h : v.equal w = true) : w.equal v = true := by
  rcases equal_iff.mp h with ⟨x, y, rfl, rfl, hxy⟩ | ⟨rfl, -⟩
  · exact Binary64.equal_symm hxy
  · exact h

theorem equal_trans (huv : u.equal v = true) (hvw : v.equal w = true) : u.equal w = true := by
  rcases equal_iff.mp huv with ⟨x, y, rfl, rfl, hxy⟩ | ⟨rfl, -⟩
  · rcases equal_iff.mp hvw with ⟨y', z, hy, rfl, hyz⟩ | ⟨-, hother⟩
    · cases hy
      exact Binary64.equal_trans hxy hyz
    · exact absurd rfl (hother y)
  · exact hvw

/-- Nothing equals a NaN. -/
theorem isNaN_of_equal (h : v.equal w = true) : v.isNaN = false := by
  rcases equal_iff.mp h with ⟨x, y, rfl, rfl, hxy⟩ | ⟨rfl, -⟩
  · exact (Binary64.equal_iff.mp hxy).1
  · exact equal_self_iff.mp h

/-- **Which values are equal to what is read back from them.**  All but NaNs, and
in raw attributes only null and raw text. -/
theorem equal_reread_iff (h : v.conforms dataType = true) (hw : v.reread dataType = some w) :
    v.equal w = true ↔
      v.isNaN = false ∧ (dataType = .raw → v.isNull = true ∨ v.isRaw = true) := by
  by_cases hraw : dataType = .raw
  · subst hraw
    obtain rfl := Option.some.inj ((reread_raw v).symm.trans hw)
    cases v <;> simp [equal, isNaN, isNull, isRaw, text]
  · rw [and_iff_left fun hraw' => absurd hraw' hraw]
    constructor
    · exact isNaN_of_equal
    · intro hnan
      have hself := reread_eq_self h hraw (by simp [hnan])
      obtain rfl := Option.some.inj (hself.symm.trans hw)
      exact equal_self_iff.mpr hnan

end Value

end TypedForest
