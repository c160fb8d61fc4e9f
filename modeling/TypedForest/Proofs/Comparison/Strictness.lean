import TypedForest.Proofs.Comparison.Passing

/-!
# Stricter and looser comparisons

Two settings decide how strict a comparison is.  They act at two places only: positions
are compared or not, and two values are compared as values or by their wire forms.  So a
comparison that passes under one setting passes under another if the other one asks for
no more positions and accepts every pair of values that the comparison meets
(`Passes.mono`).

Leaving out positions asks for less.  Comparing wire forms almost does: equal values are
written alike, except for the two zeros, which are equal numbers with different texts.
A comparison that meets a zero on one side and its negative on the other passes by value
and fails by wire form, and nothing else can make it fail.

## Main Definitions

* `Value.zero`, `Value.OppositeZeros`: the two zeros.
* `Comparison.Matched`: properties that are compared with each other.
* `Comparison.Confronts`: values that are.

## Main Results

* `Value.wire_eq_iff_of_equal`: which equal values are written alike.
* `Comparison.Passes.sameValue`: in a comparison that passes, all values do.
* `Comparison.Passes.mono`: when a comparison passes under another setting.
* `Comparison.relaxed_passes_iff`: what switching to a looser setting keeps.
-/

namespace TypedForest

/-! ### The two zeros -/

namespace Value

variable {v w : Value}

/-- Zero with either sign. -/
def zero (negative : Bool) : Value :=
  .float (.ofBits (if negative then 0x8000000000000000 else 0))

/-- The values are the two zeros, in either order. -/
def OppositeZeros (v w : Value) : Prop := ∃ negative, v = zero negative ∧ w = zero (!negative)

theorem float_eq_zero {x : Binary64} (h : x.magnitude = 0) : float x = zero x.negative := by
  obtain ⟨negative, magnitude, hlt⟩ := x
  obtain rfl : magnitude = 0 := h
  cases negative <;> simp [zero, Binary64.ofBits, Binary64.signBit]

/-- The sign of a zero is written. -/
theorem wire_zero_ne (negative : Bool) : (zero negative).wire ≠ (zero !negative).wire := by
  cases negative <;> decide

/-- **Equal values are written alike unless they are the two zeros.** -/
theorem wire_eq_iff_of_equal (h : v.equal w = true) :
    v.wire = w.wire ↔ ¬ v.OppositeZeros w := by
  constructor
  · rintro hwire ⟨negative, rfl, rfl⟩
    exact wire_zero_ne negative hwire
  · intro hzeros
    rcases equal_iff.mp h with ⟨x, y, rfl, rfl, hxy⟩ | ⟨rfl, -⟩
    · obtain ⟨-, -, hmagnitude, hsign⟩ := Binary64.equal_iff.mp hxy
      by_cases hnegative : x.negative = y.negative
      · obtain ⟨negative, magnitude, hlt⟩ := x
        obtain ⟨negative', magnitude', hlt'⟩ := y
        obtain rfl : negative = negative' := hnegative
        obtain rfl : magnitude = magnitude' := hmagnitude
        rfl
      · have hzero : x.magnitude = 0 := hsign.resolve_left hnegative
        refine absurd ⟨x.negative, float_eq_zero hzero, ?_⟩ hzeros
        rw [float_eq_zero (hmagnitude ▸ hzero), Bool.eq_not_of_ne (Ne.symm hnegative)]
    · rfl

end Value

namespace Comparison

variable {c c' : Comparison} {expected actual : Forest} {e a : NodeId} {v w : Value}

/-! ### What a comparison meets -/

/-- The property `x` of `e` is compared with the property `y` of `a`. -/
def Matched (expected actual : Forest) (e a : NodeId) (x y : Facet) : Prop :=
  x ∈ expected.visible e ∧
    (actual.visible a).find? (fun y => y.property.name == x.property.name) = some y

/-- Comparing the trees below `e` and `a` sets the value `v` against `w`, provided that no
difference is found before. -/
inductive Confronts (expected actual : Forest) : NodeId → NodeId → Value → Value → Prop
  | here {e a : NodeId} {x y : Facet} {v w : Value} (h : Matched expected actual e a x y)
      (hx : x.slot = .value v) (hy : y.slot = .value w) : Confronts expected actual e a v w
  | deeper {e a d b : NodeId} {x y : Facet} {v w : Value} (h : Matched expected actual e a x y)
      (hdb : (d, b) ∈ x.slot.owned.zip y.slot.owned)
      (hvw : Confronts expected actual d b v w) : Confronts expected actual e a v w

section

variable {P Q : NodeId → NodeId → Prop} {x y : Facet} {s t : Slot}

/-- At a level that passes, the facets that are matched pass. -/
theorem Level.slotsPass (h : c.Level expected actual P e a)
    (hxy : Matched expected actual e a x y) : c.SlotsPass expected actual P x.slot y.slot := by
  obtain ⟨es, as, hes, has, hfacets⟩ := h.facets
  rw [Matched, Forest.visible, Forest.visible, hes, has] at hxy
  obtain ⟨z, hz, hslots⟩ := hfacets x hxy.1
  obtain rfl := Option.some.inj (hz.symm.trans hxy.2)
  exact hslots

/-- Slots that agree still agree if the values in them do. -/
theorem SlotsAgree.mono (h : c.SlotsAgree expected actual s t)
    (hvalue : ∀ v w, s = .value v → t = .value w → c.sameValue v w = true →
      c'.sameValue v w = true) : c'.SlotsAgree expected actual s t := by
  cases s with
  | value v =>
      cases t with
      | value w =>
          exact slotsAgree_value_iff.mpr (hvalue v w rfl rfl (slotsAgree_value_iff.mp h))
      | _ => cases h
  | child | children | reference => cases t <;> exact h
  | ignored => cases h

theorem SlotsPass.mono (h : c.SlotsPass expected actual P s t)
    (hvalue : ∀ v w, s = .value v → t = .value w → c.sameValue v w = true →
      c'.sameValue v w = true)
    (hnode : ∀ d b, (d, b) ∈ s.owned.zip t.owned → P d b → Q d b) :
    c'.SlotsPass expected actual Q s t := by
  rcases h with hignored | ⟨hagree, hnodes⟩
  · exact .inl hignored
  · obtain ⟨hlength, hpairs⟩ := List.forall₂_iff_zip.mp hnodes
    exact .inr ⟨hagree.mono hvalue,
      List.forall₂_iff_zip.mpr ⟨hlength, fun hdb => hnode _ _ hdb (hpairs hdb)⟩⟩

/-- One level passes under another setting, if no more positions count and the values and
the nodes that are matched pass there. -/
theorem Level.mono (h : c.Level expected actual P e a)
    (hposition : c'.positions = true → c.positions = true)
    (hvalue : ∀ x y v w, Matched expected actual e a x y → x.slot = .value v →
      y.slot = .value w → c.sameValue v w = true → c'.sameValue v w = true)
    (hnode : ∀ x y d b, Matched expected actual e a x y →
      (d, b) ∈ x.slot.owned.zip y.slot.owned → P d b → Q d b) :
    c'.Level expected actual Q e a := by
  obtain ⟨⟨n, k, hn, hk, htype, hsame⟩, es, as, hes, has, hfacets⟩ := h
  refine ⟨⟨n, k, hn, hk, htype, fun hc => hsame (hposition hc)⟩, es, as, hes, has, fun x hx => ?_⟩
  obtain ⟨y, hy, hslots⟩ := hfacets x hx
  have hxy : Matched expected actual e a x y := by
    rw [Matched, Forest.visible, Forest.visible, hes, has]
    exact ⟨hx, hy⟩
  exact ⟨y, hy, hslots.mono (fun v w => hvalue x y v w hxy) fun d b => hnode x y d b hxy⟩

end

/-! ### All levels -/

/-- **In a comparison that passes, all the values that it meets do.** -/
theorem Passes.sameValue {budget : Nat} (h : c.Passes expected actual budget e a)
    (hvw : Confronts expected actual e a v w) : c.sameValue v w = true := by
  induction hvw generalizing budget with
  | here hxy hx hy =>
      cases budget with
      | zero => exact h.elim
      | succ budget =>
          have hslots := Level.slotsPass h hxy
          rw [hx, hy] at hslots
          rcases hslots with hignored | ⟨hagree, -⟩
          · cases hignored
          · exact slotsAgree_value_iff.mp hagree
  | deeper hxy hdb _ ih =>
      cases budget with
      | zero => exact h.elim
      | succ budget =>
          rcases Level.slotsPass h hxy with hignored | ⟨-, hnodes⟩
          · rw [hignored] at hdb
            cases hdb
          · exact ih ((List.forall₂_iff_zip.mp hnodes).2 hdb)

/-- **When a comparison passes under another setting.**  No more positions may count, and
the values that the comparison meets must pass there as well. -/
theorem Passes.mono {budget : Nat} (h : c.Passes expected actual budget e a)
    (hposition : c'.positions = true → c.positions = true)
    (hvalue : ∀ v w, Confronts expected actual e a v w → c.sameValue v w = true →
      c'.sameValue v w = true) : c'.Passes expected actual budget e a := by
  induction budget generalizing e a with
  | zero => exact h
  | succ budget ih =>
      refine Level.mono h hposition (fun x y v w hxy hx hy => hvalue v w (.here hxy hx hy)) ?_
      intro x y d b hxy hdb hpasses
      exact ih hpasses fun v w hvw => hvalue v w (.deeper hxy hdb hvw)

/-- **Looser comparisons.**  A comparison that passes still passes when positions no longer
count.  It still passes when values are compared by their wire forms, if and only if it
meets no zero whose counterpart is the zero of the other sign.  The forests may have
different metamodels, and their lists may be null or ignored. -/
theorem relaxed_passes_iff (c : Comparison) {expected actual : Forest} {e a : NodeId}
    (hpass : c.trees expected e actual a = .ok ()) :
    { c with positions := false }.trees expected e actual a = .ok () ∧
      ({ c with lightweight := true }.trees expected e actual a = .ok () ↔
        ¬ ∃ v w, Confronts expected actual e a v w ∧ v.OppositeZeros w) := by
  have hpasses : c.Passes expected actual (expected.size + 1) e a :=
    nodes_eq_ok_iff_passes.mp hpass
  refine ⟨nodes_eq_ok_iff_passes.mpr (hpasses.mono (by simp) fun _ _ _ hsame => hsame), ?_⟩
  constructor
  · rintro hlight ⟨v, w, hvw, negative, rfl, rfl⟩
    have hsame := (nodes_eq_ok_iff_passes.mp hlight).sameValue hvw
    exact Value.wire_zero_ne negative (beq_iff_eq.mp hsame)
  · intro hzeros
    refine nodes_eq_ok_iff_passes.mpr (hpasses.mono id fun v w hvw hsame => ?_)
    show (v.wire == w.wire) = true
    rw [beq_iff_eq]
    unfold sameValue at hsame
    split_ifs at hsame
    · exact beq_iff_eq.mp hsame
    · exact (Value.wire_eq_iff_of_equal hsame).mpr fun hopposite => hzeros ⟨v, w, hvw, hopposite⟩

/-- Notes that are equal are met below the root, and one of them is a negative zero.  An
ignored list is not looked into. -/
theorem relaxed_passes_iff_pages :
    trees {} notedPages ⟨0⟩ datedPages ⟨0⟩ = .ok () ∧
    (∃ v w, Confronts notedPages datedPages ⟨0⟩ ⟨0⟩ v w ∧ v.OppositeZeros w) ∧
    trees { lightweight := true } openPages ⟨0⟩ datedPages ⟨0⟩ = .ok () ∧
    ¬ ∃ v w, Confronts openPages datedPages ⟨0⟩ ⟨0⟩ v w ∧ v.OppositeZeros w := by
  have hstrict : trees { positions := true } notedPages ⟨0⟩ datedPages ⟨0⟩ = .ok () := by
    decide +kernel
  have hopen : trees {} openPages ⟨0⟩ datedPages ⟨0⟩ = .ok () := by decide +kernel
  have hlight : trees { lightweight := true } openPages ⟨0⟩ datedPages ⟨0⟩ = .ok () := by
    decide +kernel
  obtain ⟨hpass, hzeros⟩ := relaxed_passes_iff _ hstrict
  exact ⟨hpass, not_not.mp (hzeros.not.mp (by decide +kernel)), hlight,
    (relaxed_passes_iff _ hopen).2.mp hlight⟩

/-- A number that goes with a page. -/
def weight : Property where
  name := "weight"
  kind := .value
  dataType := some .float

/-- A page whose part weighs nothing. -/
def weightless (negative : Bool) : Forest :=
  pages [weight] [.setValue ⟨1⟩ "weight" (.zero negative)]

/-- By value the two zeros are equal, and by wire form they differ. -/
theorem lightweight_rejects_zeros :
    ((pageModel [weight]).Built ∧ Forest.Reachable (pageModel [weight]) (weightless false) ∧
      Forest.Reachable (pageModel [weight]) (weightless true)) ∧
    trees {} (weightless false) ⟨0⟩ (weightless true) ⟨0⟩ = .ok () ∧
    trees { lightweight := true } (weightless false) ⟨0⟩ (weightless true) ⟨0⟩ =
      .error (.different "<root>.parts[0].weight" (.value (.zero false) (.zero true))) :=
  ⟨⟨(pageModel_built [weight]), ⟨_, rfl⟩, ⟨_, rfl⟩⟩, by decide +kernel, by decide +kernel⟩

end Comparison

end TypedForest
