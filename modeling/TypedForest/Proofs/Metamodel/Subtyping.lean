import TypedForest.Proofs.Metamodel.Lineage

/-!
# Subtyping as an order

A type may stand for another if supertypes lead from it to the other.  Which types these
are can be found in two ways.  One is the lineage, collected in one pass over all types,
latest first.  The other is a search, which starts from the type and keeps the types that
are still to be looked at on a stack.  The search does not need to know when types were
registered, and nothing but its memory of what it has seen keeps it from running in
circles; it ends for every metamodel.  For metamodels that were built, both ways agree
with reachability.

Reachability through supertypes is reflexive and transitive by its definition.  That it is
antisymmetric comes from the order of registration: a supertype is registered earlier.

## Main Definitions

* `Metamodel.search`, `Metamodel.reaches`: the search for a supertype.
* `Metamodel.Explored`: what the search knows while it has not found anything.

## Main Results

* `Explored.skip`, `Layered.explored_visit`: the steps of the search.
* `Layered.reaches_iff`: the search is exact.
* `Layered.antisymm`: types that are above each other are the same.
* `Layered.effective_subset`: a subtype has all properties of its supertypes.
* `Built.assignable_grow`: registrations leave the order of the types before them alone.
* `Metamodel.subtyping_order`: all of these, after any registrations.
-/

namespace TypedForest.Metamodel

open Relation

variable {m : Metamodel} {sub super x : String} {seen waiting : List String}

/-! ### Searching for a supertype -/

/-- The direct supertypes of a type; a type that is not registered has none. -/
def above (m : Metamodel) (type : String) : List String :=
  ((m.type? type).map NodeType.supertypes).getD []

/-- The registered types that have not been seen. -/
def unseen (m : Metamodel) (seen : List String) : List String :=
  m.table.keys.filter fun type => decide (type ∉ seen)

theorem unseen_cons (m : Metamodel) (x : String) (seen : List String) :
    m.unseen (x :: seen) = (m.unseen seen).filter fun type => decide (type ≠ x) := by
  rw [unseen, unseen, List.filter_filter]
  refine List.filter_congr fun type _ => ?_
  simp [not_or]

/-- Looking at a type that has not been seen: either it has supertypes, and one registered
type less is unseen, or nothing is put in its place. -/
theorem search_decreases (hx : x ∉ seen) (waiting : List String) :
    Prod.Lex (· < ·) (· < ·)
      ((m.unseen (x :: seen)).length, ((m.above x).reverse ++ waiting).length)
      ((m.unseen seen).length, (x :: waiting).length) := by
  rw [unseen_cons]
  cases ht : m.type? x with
  | none =>
      have hnone : m.above x = [] := by simp [above, ht]
      rw [hnone]
      refine Prod.Lex.right' _ (List.length_filter_le _ _) ?_
      simp
  | some t =>
      refine Prod.Lex.left _ _ (List.length_filter_lt_length_iff_exists.mpr ⟨x, ?_, by simp⟩)
      have hkey : x ∈ m.table.keys := Dictionary.mem_keys.mpr (Option.isSome_iff_exists.mpr ⟨t, ht⟩)
      exact List.mem_filter.mpr ⟨hkey, decide_eq_true hx⟩

/-- The search for a supertype from the types that are waiting.  A type that was seen
before is passed over; of any other the supertypes are put on top of the stack, unless the
one in question is among them. -/
def search (m : Metamodel) (super : String) (seen : List String) : List String → Bool
  | [] => false
  | x :: waiting =>
      if x ∈ seen then m.search super seen waiting
      else if super ∈ m.above x then true
      else m.search super (x :: seen) ((m.above x).reverse ++ waiting)
termination_by waiting => ((m.unseen seen).length, waiting.length)
decreasing_by
  · exact Prod.Lex.right _ (Nat.lt_succ_self _)
  · exact search_decreases ‹x ∉ seen› _

/-- Does the search from a type lead to another one? -/
def reaches (m : Metamodel) (sub super : String) : Bool :=
  sub == super || m.search super [] [sub]

/-! ### The search is exact -/

/-- What the search knows while it has not found anything: no type that it has seen has
the type in question as a supertype, and all the supertypes are seen or waiting. -/
def Explored (m : Metamodel) (super : String) (seen waiting : List String) : Prop :=
  ∀ x ∈ seen, ∀ s, m.Extends x s → s ≠ super ∧ (s ∈ seen ∨ s ∈ waiting)

theorem Layered.mem_above_iff (hm : m.Layered) : super ∈ m.above sub ↔ m.Extends sub super := by
  constructor
  · intro h
    cases ht : m.type? sub with
    | none => simp [above, ht] at h
    | some t =>
        obtain ⟨hmem, hname⟩ := hm.mem_of_type? ht
        exact ⟨t, hmem, hname, by simpa [above, ht] using h⟩
  · rintro ⟨t, hmem, rfl, hsuper⟩
    have ht := hm.mem_types.mp hmem
    simpa [above, ht] using hsuper

/-- What is found is above a type that was waiting. -/
theorem Layered.transGen_of_search (hm : m.Layered) (h : m.search super seen waiting = true) :
    ∃ x ∈ waiting, TransGen m.Extends x super := by
  fun_induction search m super seen waiting with
  | case1 => cases h
  | case2 seen x waiting _ ih =>
      obtain ⟨y, hy, hup⟩ := ih h
      exact ⟨y, List.mem_cons_of_mem _ hy, hup⟩
  | case3 seen x waiting _ hsuper =>
      exact ⟨x, List.mem_cons_self, .single (hm.mem_above_iff.mp hsuper)⟩
  | case4 seen x waiting _ _ ih =>
      obtain ⟨y, hy, hup⟩ := ih h
      rcases List.mem_append.mp hy with hy | hy
      · refine ⟨x, List.mem_cons_self, .head ?_ hup⟩
        exact hm.mem_above_iff.mp (List.mem_reverse.mp hy)
      · exact ⟨y, List.mem_cons_of_mem _ hy, hup⟩

/-- Once nothing is waiting, nothing leads from what was seen to the type in question. -/
theorem Explored.not_transGen (h : m.Explored super seen []) (hx : x ∈ seen) :
    ¬ TransGen m.Extends x super := by
  intro hup
  induction hup using TransGen.head_induction_on with
  | single hstep => exact (h _ hx _ hstep).1 rfl
  | head hstep _ ih => exact ih ((h _ hx _ hstep).2.resolve_right List.not_mem_nil)

/-- A type that was seen before may be passed over. -/
theorem Explored.skip (h : m.Explored super seen (x :: waiting)) (hx : x ∈ seen) :
    m.Explored super seen waiting := by
  intro y hy s hs
  obtain ⟨hne, hs⟩ := h y hy s hs
  refine ⟨hne, hs.elim .inl fun hs => ?_⟩
  rcases List.mem_cons.mp hs with rfl | hs
  · exact .inl hx
  · exact .inr hs

/-- Looking at a type moves it from the stack to what was seen, and its supertypes are
waiting instead. -/
theorem Layered.explored_visit (hm : m.Layered) (h : m.Explored super seen (x :: waiting))
    (hsuper : super ∉ m.above x) :
    m.Explored super (x :: seen) ((m.above x).reverse ++ waiting) := by
  intro y hy s hs
  rcases List.mem_cons.mp hy with rfl | hy
  · have hmem := hm.mem_above_iff.mpr hs
    refine ⟨fun heq => hsuper (heq ▸ hmem), .inr ?_⟩
    exact List.mem_append_left _ (List.mem_reverse.mpr hmem)
  · obtain ⟨hne, hs⟩ := h y hy s hs
    refine ⟨hne, ?_⟩
    rcases hs with hs | hs
    · exact .inl (List.mem_cons_of_mem _ hs)
    · rcases List.mem_cons.mp hs with rfl | hs
      · exact .inl List.mem_cons_self
      · exact .inr (List.mem_append_right _ hs)

/-- A search that finds nothing has looked everywhere. -/
theorem Layered.not_transGen_of_search (hm : m.Layered)
    (h : m.search super seen waiting = false) (hexplored : m.Explored super seen waiting) :
    ∀ x, x ∈ seen ∨ x ∈ waiting → ¬ TransGen m.Extends x super := by
  fun_induction search m super seen waiting with
  | case1 seen =>
      exact fun x hx => hexplored.not_transGen (hx.resolve_right List.not_mem_nil)
  | case2 seen y waiting hy ih =>
      rintro x (hx | hx)
      · exact ih h (hexplored.skip hy) x (.inl hx)
      · rcases List.mem_cons.mp hx with rfl | hx
        · exact ih h (hexplored.skip hy) x (.inl hy)
        · exact ih h (hexplored.skip hy) x (.inr hx)
  | case3 => cases h
  | case4 seen y waiting _ hsuper ih =>
      have hnext := ih h (hm.explored_visit hexplored hsuper)
      rintro x (hx | hx)
      · exact hnext x (.inl (List.mem_cons_of_mem _ hx))
      · rcases List.mem_cons.mp hx with rfl | hx
        · exact hnext x (.inl List.mem_cons_self)
        · exact hnext x (.inr (List.mem_append_right _ hx))

/-- **The search is exact.** -/
theorem Layered.reaches_iff (hm : m.Layered) :
    m.reaches sub super = true ↔ ReflTransGen m.Extends sub super := by
  rw [reaches, Bool.or_eq_true, beq_iff_eq, reflTransGen_iff_eq_or_transGen, eq_comm]
  refine or_congr_right ⟨fun h => ?_, fun hup => ?_⟩
  · obtain ⟨x, hx, hup⟩ := hm.transGen_of_search h
    exact List.mem_singleton.mp hx ▸ hup
  · by_contra h
    rw [Bool.not_eq_true] at h
    have hempty : m.Explored super [] [sub] := fun x hx => absurd hx List.not_mem_nil
    exact hm.not_transGen_of_search h hempty sub (.inr List.mem_cons_self) hup

/-! ### The order -/

/-- A supertype is registered earlier. -/
theorem Layered.idxOf_lt (hm : m.Layered) (h : m.Extends sub super) :
    m.order.idxOf super < m.order.idxOf sub := by
  obtain ⟨t, ht, rfl, hsuper⟩ := h
  obtain ⟨older, newer, hsplit⟩ := List.append_of_mem ht
  have hbefore := hm.supertypes_before hsplit super hsuper
  have hnodup := hm.nodup_names
  rw [← hm.names_eq]
  rw [hsplit, List.map_append, List.map_cons] at hnodup ⊢
  rw [List.idxOf_append_of_mem hbefore,
    List.idxOf_append_of_notMem (not_mem_of_nodup_append hnodup)]
  exact Nat.lt_of_lt_of_le (List.idxOf_lt_length_iff.mpr hbefore) (Nat.le_add_right _ _)

/-- All that is above a type is registered earlier. -/
theorem Layered.idxOf_lt_of_transGen (hm : m.Layered) (h : TransGen m.Extends sub super) :
    m.order.idxOf super < m.order.idxOf sub := by
  induction h with
  | single hstep => exact hm.idxOf_lt hstep
  | tail _ hstep ih => exact Nat.lt_trans (hm.idxOf_lt hstep) ih

/-- Types that are above each other are the same. -/
theorem Layered.antisymm (hm : m.Layered) (h : ReflTransGen m.Extends sub super)
    (h' : ReflTransGen m.Extends super sub) : sub = super := by
  rcases reflTransGen_iff_eq_or_transGen.mp h with heq | hup
  · exact heq.symm
  rcases reflTransGen_iff_eq_or_transGen.mp h' with heq | hdown
  · exact heq
  · exact absurd (hm.idxOf_lt_of_transGen hup) (Nat.lt_asymm (hm.idxOf_lt_of_transGen hdown))

/-- A subtype has all properties of its supertypes. -/
theorem Layered.effective_subset (hm : m.Layered) {t u : NodeType}
    (ht : m.type? sub = some t) (hu : m.type? super = some u)
    (h : ReflTransGen m.Extends sub super) : t.effective ⊇ u.effective := by
  intro p hp
  obtain ⟨htm, rfl⟩ := hm.mem_of_type? ht
  obtain ⟨hum, rfl⟩ := hm.mem_of_type? hu
  obtain ⟨owner, hup, hdeclares⟩ := (hm.mem_effective u hum p).mp hp
  exact (hm.mem_effective t htm p).mpr ⟨owner, h.trans hup, hdeclares⟩

/-! ### Later registrations -/

/-- A registration keeps the types before it and what is above them. -/
theorem Built.above_perform (hm : m.Built) (r : Registration)
    (hsub : sub ∈ m.order) :
    sub ∈ (r.perform m).order ∧
      (ReflTransGen (r.perform m).Extends sub super ↔ ReflTransGen m.Extends sub super) := by
  rw [Registration.perform]
  rcases r.program_cases m with ⟨e, hrun⟩ | ⟨name, literals, -, -, hrun⟩ | ⟨d, t, -, ht, hrun⟩
  · rw [hrun]
    exact ⟨hsub, Iff.rfl⟩
  · rw [hrun]
    exact ⟨hsub, Iff.rfl⟩
  · obtain ⟨hd, rfl⟩ := hm.layered.resolve_eq_ok_iff.mp ht
    rw [hrun]
    exact ⟨List.mem_append_left _ hsub, hm.layered.reflTransGen_enter hd.name_new hsub⟩

/-- **Registrations leave the order of the types before them alone.** -/
theorem Built.assignable_grow (hm : m.Built) (calls : List Registration)
    (hsub : sub ∈ m.order) :
    (m.grow calls).assignable sub super = m.assignable sub super := by
  suffices hsame : ReflTransGen (m.grow calls).Extends sub super ↔
      ReflTransGen m.Extends sub super by
    rw [Bool.eq_iff_iff, (hm.grow calls).layered.assignable_iff, hm.layered.assignable_iff, hsame]
  induction calls generalizing m with
  | nil => exact Iff.rfl
  | cons r calls ih =>
      obtain ⟨hkept, hstep⟩ := hm.above_perform r hsub
      exact (ih (hm.perform r) hkept).trans hstep

/-- **Subtyping is the order of inheritance.**  After any list of registrations, a type may
stand for another exactly if supertypes lead from it to the other, and the search, which
always ends, gives the same answer.  This is an order; along it, tables of properties
grow.  What is registered later never changes it for a type that was registered before. -/
theorem subtyping_order (name : String) (calls : List Registration) :
    let m := grow calls { name }
    (∀ sub super, m.assignable sub super = true ↔ ReflTransGen m.Extends sub super) ∧
    (∀ sub super, m.reaches sub super = m.assignable sub super) ∧
    (∀ type, m.assignable type type = true) ∧
    (∀ a b c, m.assignable a b = true → m.assignable b c = true → m.assignable a c = true) ∧
    (∀ a b, m.assignable a b = true → m.assignable b a = true → a = b) ∧
    (∀ sub super t u, m.type? sub = some t → m.type? super = some u →
      m.assignable sub super = true → u.effective ⊆ t.effective) ∧
    ∀ later sub super, (m.type? sub).isSome →
      (m.grow later).assignable sub super = m.assignable sub super := by
  intro m
  have hbuilt : m.Built := (Built.empty name).grow calls
  have hm : m.Layered := hbuilt.layered
  have hiff : ∀ sub super, m.assignable sub super = true ↔ ReflTransGen m.Extends sub super :=
    fun _ _ => hm.assignable_iff
  refine ⟨hiff, fun sub super => ?_, m.assignable_self, fun a b c hab hbc => ?_,
    fun a b hab hba => ?_, fun sub super t u ht hu h => ?_, fun later sub super hsub => ?_⟩
  · rw [Bool.eq_iff_iff, hm.reaches_iff, hiff]
  · exact (hiff a c).mpr (((hiff a b).mp hab).trans ((hiff b c).mp hbc))
  · exact hm.antisymm ((hiff a b).mp hab) ((hiff b a).mp hba)
  · exact hm.effective_subset ht hu ((hiff sub super).mp h)
  · exact hbuilt.assignable_grow later ((hm.mem_order sub).mpr hsub)

/-- Ways lead up the diamond, and none lead down or across it.  A type that is registered
later comes to stand below `Right`, and `Right` stays where it was. -/
theorem subtyping_order_diamond :
    let m := grow diamondCalls { name := "diamond" }
    let later := m.grow [.type { rival with supertypes := ["Right"] }]
    m.reaches "Both" "Named" = true ∧ m.reaches "Named" "Both" = false ∧
    m.reaches "Left" "Right" = false ∧ m.effectiveOf "Named" ⊆ m.effectiveOf "Both" ∧
    later.assignable "Rival" "Named" = true ∧ later.assignable "Right" "Rival" = false := by
  intro m later
  obtain ⟨-, hsearch, -, -, -, htables, hlater⟩ := subtyping_order "diamond" diamondCalls
  have hknown : ∀ type ∈ ["Named", "Right", "Both"], (m.type? type).isSome := by decide +kernel
  obtain ⟨named, hnamed⟩ := Option.isSome_iff_exists.mp (hknown "Named" (by decide))
  obtain ⟨both, hboth⟩ := Option.isSome_iff_exists.mp (hknown "Both" (by decide))
  refine ⟨?_, ?_, ?_, ?_, by decide +kernel, ?_⟩
  · rw [hsearch]
    decide +kernel
  · rw [hsearch]
    decide +kernel
  · rw [hsearch]
    decide +kernel
  · rw [effectiveOf, effectiveOf, hnamed, hboth]
    exact htables "Both" "Named" both named hboth hnamed (by decide +kernel)
  · rw [hlater _ "Right" "Rival" (hknown "Right" (by decide))]
    decide +kernel

end TypedForest.Metamodel
