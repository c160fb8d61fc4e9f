import Mathlib.Data.List.Perm.Subperm
import TypedForest.Proofs.Forest.WellFormed

/-!
# The way up

In a well-formed forest the search for ancestors is never cut short: it meets no
node twice and never runs out of room.  So a node's ancestors are its parent
followed by the parent's ancestors, and they are exactly the nodes above it.

## Main Definitions

* `Forest.WayUp`: the nodes met from a node upwards, with no bound.
* `Forest.depth`, `Forest.topmost`: how far up the root is, and the root.

## Main Results

* `WellFormed.ancestors_cons`, `ancestors_of_free`: the recursive reading.
* `WellFormed.mem_ancestors`: the search upwards finds what is above.
* `WellFormed.checkAdoption_eq_ok_iff`: what the check of a new child decides.
-/

namespace TypedForest.Forest

open Relation

variable {f : Forest}

/-- The nodes met on the way up, from a given one to the root. -/
inductive WayUp (f : Forest) : Option NodeId → List NodeId → Prop
  | top : WayUp f none []
  | up {p : NodeId} {l : List NodeId} (h : WayUp f (f.parent? p) l) : WayUp f (some p) (p :: l)

/-- There is one way up. -/
theorem WayUp.unique {start : Option NodeId} {l k : List NodeId} (hl : f.WayUp start l)
    (hk : f.WayUp start k) : l = k := by
  induction hl generalizing k with
  | top => cases hk; rfl
  | up _ ih =>
      cases hk with
      | up hk' => rw [ih hk']

/-- Whoever is met is above the start. -/
theorem WayUp.reflTransGen {start : Option NodeId} {l : List NodeId} (hl : f.WayUp start l)
    {x : NodeId} (hx : x ∈ l) : ∃ p, start = some p ∧ ReflTransGen f.IsParent p x := by
  induction hl with
  | top => cases hx
  | @up p l _ ih =>
      refine ⟨p, rfl, ?_⟩
      rcases List.mem_cons.mp hx with rfl | hmem
      · exact .refl
      · obtain ⟨q, hq, hup⟩ := ih hmem
        exact .head hq hup

/-- Distinct nodes of a forest are no more than its size. -/
theorem length_le_size {l : List NodeId} (hl : l.Nodup) (hmem : ∀ x ∈ l, (f.get? x).isSome) :
    l.length ≤ f.size := by
  have hinj : Function.Injective NodeId.index := by
    rintro ⟨i⟩ ⟨j⟩ hij
    exact congrArg NodeId.mk hij
  have hsub : l.map NodeId.index ⊆ List.range f.size := by
    intro i hi
    obtain ⟨x, hx, rfl⟩ := List.mem_map.mp hi
    exact List.mem_range.mpr ((f.get?_isSome_iff x).mp (hmem x hx))
  have hle := (List.Nodup.subperm (hl.map hinj) hsub).length_le
  simpa using hle

/-- The number of steps from a node up to the root. -/
def depth (f : Forest) (c : NodeId) : Nat := (f.ancestors c).length

/-- The root of the tree that a node belongs to. -/
def topmost (f : Forest) (c : NodeId) : NodeId := (f.ancestors c).getLast?.getD c

namespace WellFormed

/-- The search upwards finds the whole way up.  The nodes met so far are distinct
and below the current one, so meeting one again would close a cycle, and there
are too few nodes for the room to be used up. -/
theorem climb_eq (hf : f.WellFormed) :
    ∀ (room : Nat) (met : List NodeId) (current : Option NodeId),
      met.Nodup → (∀ x ∈ met, (f.get? x).isSome) →
      (∀ p, current = some p → (f.get? p).isSome ∧ ∀ x ∈ met, TransGen f.IsParent x p) →
      room + met.length = f.size + 1 →
      ∃ l, f.WayUp current l ∧ f.climb room met current = met ++ l := by
  intro room
  induction room with
  | zero =>
      intro met current hnodup hmem _ hroom
      have hle := length_le_size hnodup hmem
      omega
  | succ room ih =>
      intro met current hnodup hmem hcurrent hroom
      cases current with
      | none => exact ⟨[], .top, by simp [climb]⟩
      | some p =>
          obtain ⟨hp, hbelow⟩ := hcurrent p rfl
          have hnew : p ∉ met := fun h => hf.acyclic p (hbelow p h)
          have hnodup' : (met ++ [p]).Nodup :=
            List.nodup_append.mpr ⟨hnodup, List.nodup_singleton p, by
              rintro x hx _ hy rfl
              exact hnew (List.mem_singleton.mp hy ▸ hx)⟩
          obtain ⟨l, hl, hclimb⟩ := ih (met ++ [p]) (f.parent? p) hnodup' (by
              intro x hx
              rcases List.mem_append.mp hx with hx | hx
              · exact hmem x hx
              · exact List.mem_singleton.mp hx ▸ hp) (by
              intro q hq
              refine ⟨(hf.parent_iff.mp hq).isSome_owner, fun x hx => ?_⟩
              rcases List.mem_append.mp hx with hx | hx
              · exact (hbelow x hx).tail hq
              · exact List.mem_singleton.mp hx ▸ .single hq) (by simp; omega)
          exact ⟨p :: l, .up hl, by simp [climb, hnew, hclimb]⟩

/-- The ancestors are the way up from the parent. -/
theorem wayUp_ancestors (hf : f.WellFormed) (c : NodeId) :
    f.WayUp (f.parent? c) (f.ancestors c) := by
  obtain ⟨l, hl, hclimb⟩ := hf.climb_eq (f.size + 1) [] (f.parent? c) List.nodup_nil (by simp)
    (fun p hp => ⟨(hf.parent_iff.mp hp).isSome_owner, by simp⟩) (by simp)
  rw [ancestors, hclimb]
  exact hl

/-- The ancestors of an owned node are its parent and the parent's ancestors. -/
theorem ancestors_cons (hf : f.WellFormed) {c p : NodeId} (h : f.parent? c = some p) :
    f.ancestors c = p :: f.ancestors p :=
  (hf.wayUp_ancestors c).unique (h ▸ .up (hf.wayUp_ancestors p))

/-- A free node has no ancestors. -/
theorem ancestors_of_free (hf : f.WellFormed) {c : NodeId} (h : f.parent? c = none) :
    f.ancestors c = [] :=
  (hf.wayUp_ancestors c).unique (h ▸ .top)

/-- The ancestors of a node are the nodes above it. -/
theorem mem_ancestors (hf : f.WellFormed) {c x : NodeId} :
    x ∈ f.ancestors c ↔ TransGen f.IsParent c x := by
  constructor
  · intro hx
    obtain ⟨p, hp, hup⟩ := (hf.wayUp_ancestors c).reflTransGen hx
    exact .head' hp hup
  · intro hup
    induction hup using TransGen.head_induction_on with
    | single hstep => rw [hf.ancestors_cons hstep]; exact List.mem_cons_self
    | head hstep _ ih => rw [hf.ancestors_cons hstep]; exact List.mem_cons_of_mem _ ih

/-- A child is one step deeper than its parent. -/
theorem depth_of_parent (hf : f.WellFormed) {c p : NodeId} (h : f.parent? c = some p) :
    f.depth c = f.depth p + 1 := by
  rw [depth, hf.ancestors_cons h, depth, List.length_cons]

/-- Induction from the roots down. -/
theorem down_induction (hf : f.WellFormed) {motive : NodeId → Prop}
    (root : ∀ c, f.parent? c = none → motive c)
    (child : ∀ c p, f.parent? c = some p → motive p → motive c) (c : NodeId) : motive c := by
  induction hd : f.depth c generalizing c with
  | zero =>
      cases hp : f.parent? c with
      | none => exact root c hp
      | some p =>
          rw [hf.depth_of_parent hp] at hd
          cases hd
  | succ d ih =>
      cases hp : f.parent? c with
      | none => exact root c hp
      | some p =>
          rw [hf.depth_of_parent hp] at hd
          exact child c p hp (ih p (by omega))

theorem nodup_ancestors (hf : f.WellFormed) (c : NodeId) : (f.ancestors c).Nodup := by
  induction c using hf.down_induction with
  | root c h => rw [hf.ancestors_of_free h]; exact List.nodup_nil
  | child c p h ih =>
      rw [hf.ancestors_cons h]
      refine List.nodup_cons.mpr ⟨fun hp => ?_, ih⟩
      exact hf.acyclic p (hf.mem_ancestors.mp hp)

theorem isSome_of_mem_ancestors (hf : f.WellFormed) {c x : NodeId} (h : x ∈ f.ancestors c) :
    (f.get? x).isSome := by
  induction c using hf.down_induction with
  | root c hc => rw [hf.ancestors_of_free hc] at h; cases h
  | child c p hc ih =>
      rw [hf.ancestors_cons hc] at h
      rcases List.mem_cons.mp h with rfl | h
      · exact (hf.parent_iff.mp hc).isSome_owner
      · exact ih h

/-- A node is not among its ancestors. -/
theorem nodup_cons_ancestors (hf : f.WellFormed) (c : NodeId) : (c :: f.ancestors c).Nodup :=
  List.nodup_cons.mpr ⟨fun h => hf.acyclic c (hf.mem_ancestors.mp h), hf.nodup_ancestors c⟩

/-- No node is as deep as there are nodes. -/
theorem depth_lt_size (hf : f.WellFormed) {c : NodeId} (hc : (f.get? c).isSome) :
    f.depth c < f.size := by
  have hle := length_le_size (hf.nodup_cons_ancestors c) (by
    intro x hx
    rcases List.mem_cons.mp hx with rfl | hx
    · exact hc
    · exact hf.isSome_of_mem_ancestors hx)
  rw [List.length_cons] at hle
  exact hle

/-- A child belongs to the tree of its parent. -/
theorem topmost_of_parent (hf : f.WellFormed) {c p : NodeId} (h : f.parent? c = some p) :
    f.topmost c = f.topmost p := by
  rw [topmost, hf.ancestors_cons h, topmost, List.getLast?_cons]
  rfl

theorem topmost_of_free (hf : f.WellFormed) {c : NodeId} (h : f.parent? c = none) :
    f.topmost c = c := by
  rw [topmost, hf.ancestors_of_free h]
  rfl

/-- The topmost node has no parent. -/
theorem parent?_topmost (hf : f.WellFormed) (c : NodeId) : f.parent? (f.topmost c) = none := by
  induction c using hf.down_induction with
  | root c h => rw [hf.topmost_of_free h, h]
  | child c p h ih => rw [hf.topmost_of_parent h, ih]

theorem isSome_topmost (hf : f.WellFormed) {c : NodeId} (hc : (f.get? c).isSome) :
    (f.get? (f.topmost c)).isSome := by
  induction c using hf.down_induction with
  | root c h => rwa [hf.topmost_of_free h]
  | child c p h ih =>
      rw [hf.topmost_of_parent h]
      exact ih (hf.parent_iff.mp h).isSome_owner

/-- The way up from an owned node ends at the topmost node. -/
theorem getLast?_ancestors (hf : f.WellFormed) {c p : NodeId} (h : f.parent? c = some p) :
    (f.ancestors c).getLast? = some (f.topmost c) := by
  rw [topmost, hf.ancestors_cons h, List.getLast?_cons]
  rfl

/-! ### The check of a new child -/

/-- The search for a node among the ancestors decides whether it is above. -/
theorem reflTransGen_iff (hf : f.WellFormed) {owner c : NodeId} :
    ReflTransGen f.IsParent owner c ↔ c = owner ∨ c ∈ f.ancestors owner := by
  rw [reflTransGen_iff_eq_or_transGen, hf.mem_ancestors]

/-- **The check of a new child accepts exactly the nodes that may be adopted.** -/
theorem checkAdoption_eq_ok_iff (hf : f.WellFormed) {owner c : NodeId} {p : Property} :
    f.checkAdoption owner c p = .ok () ↔ f.Adoptable owner p c := by
  constructor
  · intro h
    unfold checkAdoption at h
    split at h
    · cases h
    case isFalse hup =>
      refine ⟨?_, fun habove => hup (hf.reflTransGen_iff.mp habove)⟩
      split at h
      · cases h
      case h_2 n hn =>
        split at h
        · cases h
        case h_2 hfree =>
          refine ⟨n, hn, hfree, fun expected hexpected => ?_⟩
          simp only [hexpected] at h
          split at h
          · assumption
          · cases h
  · rintro ⟨⟨n, hn, hfree, htyped⟩, habove⟩
    have hup : ¬ (c = owner ∨ c ∈ f.ancestors owner) :=
      fun h => habove (hf.reflTransGen_iff.mpr h)
    unfold checkAdoption
    simp only [if_neg hup, hn, hfree]
    cases hexpected : p.childType with
    | none => rfl
    | some expected => simp [htyped expected hexpected]

end WellFormed

end TypedForest.Forest
