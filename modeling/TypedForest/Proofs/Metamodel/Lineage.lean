import TypedForest.Proofs.Metamodel.Inheritance

/-!
# Lineages

The lineage of a type is collected in one pass over the types, latest first.  A type that
was reached brings in its supertypes, and the pass never comes back to a type.  That
nothing is missed rests on the order of registration: whatever brings in a type was
registered after it, and has been passed by then.

## Main Results

* `Metamodel.reflTransGen_of_mem_foldr`: all that is collected is above the type.
* `Layered.mem_lineage_of_extends`: a supertype of what is collected is collected.
* `Layered.assignable_iff`: assignability is reachability through supertypes.
-/

namespace TypedForest.Metamodel

open Relation

variable {m : Metamodel} {t : NodeType} {types : List NodeType} {reached : List String}
  {sub super x : String}

/-- One step of the pass: a type that has been reached brings in its supertypes. -/
def bringIn (t : NodeType) (reached : List String) : List String :=
  if reached.contains t.name then t.supertypes ++ reached else reached

theorem lineage_eq (m : Metamodel) (sub : String) : m.lineage sub = m.types.foldr bringIn [sub] :=
  rfl

theorem mem_bringIn :
    x ∈ bringIn t reached ↔ x ∈ reached ∨ t.name ∈ reached ∧ x ∈ t.supertypes := by
  unfold bringIn
  split
  case isTrue h =>
    rw [List.contains_iff_mem] at h
    rw [List.mem_append, and_iff_right h, or_comm]
  case isFalse h =>
    rw [List.contains_iff_mem] at h
    simp [h]

/-- What has been reached stays. -/
theorem mem_foldr_bringIn (h : x ∈ reached) : x ∈ types.foldr bringIn reached := by
  induction types with
  | nil => exact h
  | cons t types ih => exact mem_bringIn.mpr (.inl ih)

/-- Nothing but supertypes is brought in. -/
theorem of_mem_foldr_bringIn (h : x ∈ types.foldr bringIn reached) :
    x ∈ reached ∨ ∃ t ∈ types, x ∈ t.supertypes := by
  induction types with
  | nil => exact .inl h
  | cons t types ih =>
      rcases mem_bringIn.mp h with h | ⟨-, hx⟩
      · rcases ih h with h | ⟨u, hu, hx⟩
        · exact .inl h
        · exact .inr ⟨u, List.mem_cons_of_mem _ hu, hx⟩
      · exact .inr ⟨t, List.mem_cons_self, hx⟩

/-- What is brought in by types of the metamodel is above what was there. -/
theorem reflTransGen_of_mem_foldr (htypes : ∀ t ∈ types, t ∈ m.types)
    (h : super ∈ types.foldr bringIn [sub]) : ReflTransGen m.Extends sub super := by
  induction types generalizing super with
  | nil => rw [List.mem_singleton.mp h]
  | cons t types ih =>
      rw [List.forall_mem_cons] at htypes
      rcases mem_bringIn.mp h with h | ⟨hname, hsuper⟩
      · exact ih htypes.2 h
      · exact (ih htypes.2 hname).tail ⟨t, htypes.1, rfl, hsuper⟩

/-- A type is not a supertype of what was registered before it. -/
theorem Layered.name_not_mem_supertypes (hm : m.Layered) {older newer : List NodeType}
    (hsplit : m.types = older ++ t :: newer) : ∀ u ∈ older, t.name ∉ u.supertypes := by
  intro u hu hsuper
  obtain ⟨first, last, rfl⟩ := List.append_of_mem hu
  have hnodup := hm.nodup_names
  rw [List.append_assoc, List.cons_append] at hsplit
  have hbefore := hm.supertypes_before hsplit t.name hsuper
  rw [hsplit, ← List.cons_append, ← List.append_assoc, List.map_append, List.map_cons] at hnodup
  refine not_mem_of_nodup_append hnodup ?_
  rw [List.map_append]
  exact List.mem_append_left _ hbefore

/-- **A supertype of what is collected is collected.** -/
theorem Layered.mem_lineage_of_extends (hm : m.Layered) (hx : x ∈ m.lineage sub)
    (h : m.Extends x super) : super ∈ m.lineage sub := by
  obtain ⟨t, ht, rfl, hsuper⟩ := h
  obtain ⟨older, newer, hsplit⟩ := List.append_of_mem ht
  rw [lineage_eq, hsplit, List.foldr_append, List.foldr_cons] at hx ⊢
  refine mem_foldr_bringIn (mem_bringIn.mpr (.inr ⟨?_, hsuper⟩))
  -- The types that come later in the pass do not bring in `t`, so it was there before.
  rcases of_mem_foldr_bringIn hx with hx | ⟨u, hu, hx⟩
  · rcases mem_bringIn.mp hx with hx | ⟨hx, -⟩
    · exact hx
    · exact hx
  · exact absurd hx (hm.name_not_mem_supertypes hsplit u hu)

/-- **Assignability is reachability through supertypes.** -/
theorem Layered.assignable_iff (hm : m.Layered) :
    m.assignable sub super = true ↔ ReflTransGen m.Extends sub super := by
  rw [assignable, List.contains_iff_mem]
  constructor
  · exact reflTransGen_of_mem_foldr fun _ ht => ht
  · intro h
    induction h with
    | refl => exact m.mem_lineage_self sub
    | tail _ hstep ih => exact hm.mem_lineage_of_extends ih hstep

end TypedForest.Metamodel
