import Mathlib.Data.List.Nodup
import TypedForest.Json.Reader
import TypedForest.Proofs.Json.RoundTrip

/-!
# Readers that undo writers

A writer takes data to JSON values, and a reader takes them back.  A datum is restored if
the reader gives it back and what is written can be spelled, so that it survives the way
through a text; a pair of the two that restores everything is lossless.  Lossless pairs
for the parts of a record make a lossless pair for the record: its members are found under
their names, which are all different.

## Main Definitions

* `Json.Restores`: a reader gives back what a writer wrote.
* `Json.Lossless`: it does so for all data.

## Main Results

* `Json.Restores.list`, `Json.Restores.option`: lists of items, and items that may be absent.
* `Json.restores_natural`, `Json.restores_int64`: numbers.
* `Json.record?_record`: the fields of a record.
* `Json.Restores.required`, `Json.Restores.optional`: fields.
* `Json.Restores.read?_write`: data are read back from their text.
-/

namespace TypedForest.Json

variable {α : Type} {item? : Json → Option α} {item : α → Json} {a : α}

/-- What is written for the datum can be spelled, and it is read back. -/
structure Restores (item? : Json → Option α) (item : α → Json) (a : α) : Prop where
  legible : (item a).Legible
  reads : item? (item a) = some a

/-- What is written can be spelled, and it is read back. -/
structure Lossless (item? : Json → Option α) (item : α → Json) : Prop where
  legible : ∀ a, (item a).Legible
  reads : ∀ a, item? (item a) = some a

theorem Lossless.restores (h : Lossless item? item) (a : α) : Restores item? item a :=
  ⟨h.legible a, h.reads a⟩

/-! ### Texts, lists and absent items -/

theorem lossless_text : Lossless text? text where
  legible s := .atom ⟨s, rfl⟩
  reads := Glyph.text?_ofText

theorem Restores.list {items : List α} (h : ∀ a ∈ items, Restores item? item a) :
    Restores (list? item?) (list item) items where
  legible := by
    refine .array fun j hj => ?_
    obtain ⟨a, ha, rfl⟩ := List.mem_map.mp hj
    exact (h a ha).legible
  reads := by
    show (items.map item).mapM item? = some items
    induction items with
    | nil => rfl
    | cons a items ih =>
        rw [List.forall_mem_cons] at h
        simp [List.mapM_cons, h.1.reads, ih h.2]

theorem Lossless.list (h : Lossless item? item) : Lossless (list? item?) (list item) where
  legible _ := (Restores.list fun a _ => h.restores a).legible
  reads _ := (Restores.list fun a _ => h.restores a).reads

/-- An absent item is written as null.  An item that is there must not be. -/
theorem Restores.option {o : Option α} (hnull : ∀ a, item a ≠ null)
    (h : ∀ a ∈ o, Restores item? item a) : Restores (option? item?) (option item) o := by
  cases o with
  | none => exact ⟨.atom trivial, rfl⟩
  | some a =>
      obtain ⟨hlegible, hreads⟩ := h a rfl
      refine ⟨hlegible, ?_⟩
      show option? item? (item a) = some (some a)
      unfold option?
      split
      case h_1 heq => exact absurd heq (hnull a)
      case h_2 => rw [hreads]; rfl

theorem restores_option_text (s : Option String) : Restores (option? text?) (option text) s :=
  .option (by simp [text, null]) fun s _ => lossless_text.restores s

/-! ### Numbers -/

theorem legible_int (i : Int) : (int i).Legible := .atom (Numeral.plain_ofInt i)

/-- The digits of an integer give its absolute value. -/
theorem digits_ofInt (i : Int) : (Numeral.ofInt i).digits = i.natAbs := by
  simp [Numeral.digits, Numeral.ofInt, Nat.ofDigitChars_ten_toDigits]

theorem restores_natural {n bound : Nat} (h : n < bound) :
    Restores (natural? bound) (fun n => int n) n where
  legible := legible_int n
  reads := by
    show natural? bound (atom (.number (.ofInt n))) = some n
    simp only [natural?, digits_ofInt, Int.natAbs_natCast]
    simp [Numeral.isInteger, Numeral.ofInt, h]

theorem restores_int64 (i : Int64) : Restores int64? (fun i => int i.toInt) i where
  legible := legible_int i.toInt
  reads := by
    have hmin := i.minValue_le_toInt
    have hmax := i.toInt_le
    have hinteger : (Numeral.ofInt i.toInt).isInteger = true := rfl
    have hnegative : (Numeral.ofInt i.toInt).negative = decide (i.toInt < 0) := rfl
    show int64? (atom (.number (.ofInt i.toInt))) = some i
    simp only [int64?, digits_ofInt, hinteger, hnegative, decide_eq_true_eq, Bool.not_true,
      Bool.false_eq_true, if_false]
    split_ifs with hneg hrange hrange
    · rw [Int.ofNat_natAbs_of_nonpos (by omega), neg_neg, Int64.ofInt_toInt]
    · exact absurd ⟨by omega, by omega⟩ hrange
    · rw [Int.natAbs_of_nonneg (by omega), Int64.ofInt_toInt]
    · exact absurd (by omega) hrange

/-! ### Records -/

theorem legible_record {members : List (String × Json)} (h : ∀ m ∈ members, m.2.Legible) :
    (record members).Legible := by
  refine .object (fun m hm => ?_) fun m hm => ?_
  · obtain ⟨member, -, rfl⟩ := List.mem_map.mp hm
    exact ⟨member.1, rfl⟩
  · obtain ⟨member, hmember, rfl⟩ := List.mem_map.mp hm
    exact h member hmember

/-- The keys of a record are texts. -/
theorem members?_record (members : List (String × Json)) :
    members? (members.map fun member => (Glyph.ofText member.1, member.2)) = some members := by
  unfold members?
  induction members with
  | nil => rfl
  | cons member members ih => simp [List.mapM_cons, ih]

/-- With different names, a member is found under its own. -/
theorem member?_of_mem {members : List (String × Json)}
    (hnodup : (members.map Prod.fst).Nodup) {m : String × Json} (hm : m ∈ members) :
    member? members m.1 = some (some m.2) := by
  have hfilter : members.filter (fun member => member.1 == m.1) = [m] := by
    induction members with
    | nil => cases hm
    | cons member members ih =>
        rw [List.map_cons, List.nodup_cons] at hnodup
        rcases List.mem_cons.mp hm with rfl | hmem
        · rw [List.filter_cons_of_pos (by simp), List.filter_eq_nil_iff.mpr]
          intro other hother heq
          exact hnodup.1 (eq_of_beq heq ▸ List.mem_map_of_mem hother)
        · have hne : member.1 ≠ m.1 := fun heq => hnodup.1 (heq ▸ List.mem_map_of_mem hmem)
          rw [List.filter_cons_of_neg (by simpa using hne), ih hnodup.2 hmem]
  rw [member?, hfilter]

/-- **The fields of a record are found**, in the order of their names. -/
theorem record?_record {members : List (String × Json)} {names : List String}
    (hnames : members.map Prod.fst = names) (hnodup : names.Nodup) :
    (record members).record? names = some (members.map fun m => some m.2) := by
  subst hnames
  show (members? (members.map _)).bind _ = _
  rw [members?_record]
  show (members.map Prod.fst).mapM (member? members) = _
  -- The names still to be looked up are those of some of the members.
  have hlook : ∀ rest ⊆ members, (rest.map Prod.fst).mapM (member? members) =
      some (rest.map fun m => some m.2) := by
    intro rest
    induction rest with
    | nil => exact fun _ => rfl
    | cons m rest ih =>
        intro hsub
        obtain ⟨hm, hrest⟩ := List.cons_subset.mp hsub
        rw [List.map_cons, List.mapM_cons, member?_of_mem hnodup hm, ih hrest]
        rfl
  exact hlook members (List.Subset.refl _)

/-! ### Fields -/

theorem Restores.required (h : Restores item? item a) :
    Json.required item? (some (item a)) = some a :=
  h.reads

theorem Lossless.required (h : Lossless item? item) (a : α) :
    Json.required item? (some (item a)) = some a :=
  (h.restores a).required

theorem Restores.optional {o : Option α} (h : Restores (option? item?) (Json.option item) o) :
    Json.optional item? (some (Json.option item o)) = some o :=
  h.reads

/-- An absent text is written as null, which is the spelling of no text. -/
theorem optional_text (s : Option String) : optional text? (some (option text s)) = some s :=
  (restores_option_text s).optional

theorem legible_option_text (s : Option String) : (option text s).Legible :=
  (restores_option_text s).legible

/-! ### Texts -/

/-- **A datum is read back from its text**, in either layout. -/
theorem Restores.read?_write (h : Restores item? item a) (style : Style) :
    (read? ((item a).write style)).bind item? = some a := by
  rw [h.legible.read?_write style]
  exact h.reads

theorem Lossless.read?_write (h : Lossless item? item) (style : Style) (a : α) :
    (read? ((item a).write style)).bind item? = some a :=
  (h.restores a).read?_write style

end TypedForest.Json
