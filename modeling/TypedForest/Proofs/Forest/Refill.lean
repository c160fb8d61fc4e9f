import TypedForest.Proofs.Forest.WellFormed

/-!
# Refilling a slot keeps a forest sound

Adopting a child, replacing one, appending to a list and giving up a list all
refill one slot.  What they have in common is proved here once: content that a
slot admits leaves the forest sound.

## Main Results

* `Sound.refill`: admitted content keeps a forest sound.
* `refill_of_slot`: putting back what is there changes nothing.
-/

namespace TypedForest.Forest

open Relation

variable {f : Forest} {owner : NodeId} {site : Site} {slot : Slot}

theorem isSome_get?_refill (f : Forest) (owner : NodeId) (index : Nat) (slot : Slot)
    (c : NodeId) : ((f.refill owner index slot).get? c).isSome = (f.get? c).isSome := by
  simp [get?_refill]

/-- Content may own nodes that exist. -/
theorem Admits.isSome_of_mem (h : f.Admits owner site slot) (hf : f.WellFormed) {c : NodeId}
    (hc : c ∈ slot.owned) : (f.get? c).isSome := by
  by_cases hold : c ∈ f.ownedAt owner site.index
  · exact hf.isSome_of_owns (owns_of_mem_ownedAt hold)
  · obtain ⟨n, hn, -⟩ := (h.adoptable c hc hold).free
    simp [hn]

/-- A node that is new to the slot was free before. -/
theorem Admits.parent?_eq_none (h : f.Admits owner site slot) {c : NodeId}
    (hc : c ∈ slot.owned) (hold : c ∉ f.ownedAt owner site.index) : f.parent? c = none := by
  obtain ⟨n, hn, hfree, -⟩ := (h.adoptable c hc hold).free
  rw [parent?_of_get? hn, hfree]

/-- The parents after a refill. -/
theorem parent?_refill (h : f.Admits owner site slot) (hf : f.WellFormed) (c : NodeId) :
    (f.refill owner site.index slot).parent? c =
      if c ∈ slot.owned then some owner
      else if c ∈ f.ownedAt owner site.index then none else f.parent? c := by
  cases hn : f.get? c with
  | none =>
      have hnew : c ∉ slot.owned := fun hc => by
        simpa [hn] using h.isSome_of_mem hf hc
      simp [parent?, get?_refill, hn, hnew]
  | some n => simp [parent?, get?_refill, hn, refillNode]

/-- The nodes owned after a refill. -/
theorem owns_refill (h : f.Admits owner site slot) (hf : f.Sound) {p c : NodeId} :
    (f.refill owner site.index slot).Owns p c ↔
      if p = owner then c ∈ slot.owned ∨ (f.Owns p c ∧ c ∉ f.ownedAt owner site.index)
      else f.Owns p c := by
  by_cases hp : p = owner
  · subst hp
    obtain ⟨n, t, hn, ht, hsite⟩ := h.site_mem
    obtain ⟨t', ht', -, hfits⟩ := hf.wellTyped hn
    obtain rfl : t = t' := by simpa using ht.symm.trans ht'
    have hlt : site.index < n.slots.length := by
      rw [hfits.length_eq]
      exact (List.getElem?_eq_some_iff.mp hsite).1
    rw [if_pos rfl]
    simp only [Owns, get?_refill, hn, Option.map_some, Option.some.injEq, exists_eq_left']
    rw [ownedAt_of_get? hn (List.getElem?_eq_getElem hlt)]
    simp only [Node.mem_owned, refillNode, if_pos, List.getElem?_set]
    constructor
    · rintro ⟨j, s, hj, hc⟩
      by_cases hjk : site.index = j
      · subst hjk
        rw [if_pos rfl, if_pos hlt] at hj
        obtain rfl := Option.some.inj hj
        exact .inl hc
      · rw [if_neg hjk] at hj
        refine .inr ⟨⟨j, s, hj, hc⟩, fun hold => hjk ?_⟩
        exact hf.wellFormed.slot_unique hn (List.getElem?_eq_getElem hlt) hj hold hc
    · rintro (hc | ⟨⟨j, s, hj, hc⟩, hold⟩)
      · exact ⟨site.index, slot, by simp [hlt], hc⟩
      · refine ⟨j, s, ?_, hc⟩
        rw [if_neg, hj]
        rintro rfl
        rw [List.getElem?_eq_getElem hlt] at hj
        exact hold (Option.some.inj hj ▸ hc)
  · rw [if_neg hp]
    simp [Owns, get?_refill, refillNode, hp, Node.owned]

/-- The steps upwards after a refill: steps from before, and steps from a new
child to the owner. -/
theorem isParent_of_refill (h : f.Admits owner site slot) (hf : f.WellFormed) {c p : NodeId}
    (hcp : (f.refill owner site.index slot).IsParent c p) :
    f.IsParent c p ∨ (p = owner ∧ f.Adoptable owner site.property c) := by
  rw [IsParent, parent?_refill h hf] at hcp
  split at hcp
  case isTrue hc =>
    obtain rfl := Option.some.inj hcp
    by_cases hold : c ∈ f.ownedAt owner site.index
    · exact .inl (hf.parent_iff.mpr (owns_of_mem_ownedAt hold))
    · exact .inr ⟨rfl, h.adoptable c hc hold⟩
  case isFalse =>
    split at hcp
    · cases hcp
    · exact .inl hcp

/-- A way up after a refill passes through at most one new child: what is above
the owner was above it before. -/
theorem transGen_of_refill (h : f.Admits owner site slot) (hf : f.WellFormed) {x y : NodeId}
    (hxy : TransGen (f.refill owner site.index slot).IsParent x y) :
    TransGen f.IsParent x y ∨
      ∃ c, f.Adoptable owner site.property c ∧ ReflTransGen f.IsParent x c ∧
        ReflTransGen f.IsParent owner y := by
  induction hxy with
  | single hstep =>
      rcases isParent_of_refill h hf hstep with hold | ⟨rfl, hnew⟩
      · exact .inl (.single hold)
      · exact .inr ⟨_, hnew, .refl, .refl⟩
  | tail _ hstep ih =>
      rcases isParent_of_refill h hf hstep with hold | ⟨rfl, hnew⟩
      · rcases ih with hdirect | ⟨c, hc, hxc, hup⟩
        · exact .inl (hdirect.tail hold)
        · exact .inr ⟨c, hc, hxc, hup.tail hold⟩
      · rcases ih with hdirect | ⟨c, -, -, hup⟩
        · exact .inr ⟨_, hnew, hdirect.to_reflTransGen, .refl⟩
        · exact absurd hup hnew.not_above

theorem acyclic_refill (h : f.Admits owner site slot) (hf : f.WellFormed) (x : NodeId) :
    ¬ TransGen (f.refill owner site.index slot).IsParent x x := by
  intro hcycle
  rcases transGen_of_refill h hf hcycle with hold | ⟨c, hc, hxc, hup⟩
  · exact hf.acyclic x hold
  · exact hc.not_above (hup.trans hxc)

theorem parent_iff_refill (h : f.Admits owner site slot) (hf : f.Sound) {c p : NodeId} :
    (f.refill owner site.index slot).parent? c = some p ↔
      (f.refill owner site.index slot).Owns p c := by
  have hown : c ∈ f.ownedAt owner site.index → f.parent? c = some owner :=
    fun hold => hf.wellFormed.parent_iff.mpr (owns_of_mem_ownedAt hold)
  rw [parent?_refill h hf.wellFormed, owns_refill h hf, ← hf.wellFormed.parent_iff]
  by_cases hnew : c ∈ slot.owned
  · -- before the refill, `c` had no parent or had `owner` as parent already
    have hbefore : f.parent? c = none ∨ f.parent? c = some owner := by
      by_cases hold : c ∈ f.ownedAt owner site.index
      · exact .inr (hown hold)
      · exact .inl (h.parent?_eq_none hnew hold)
    grind
  · by_cases hold : c ∈ f.ownedAt owner site.index
    · have hbefore := hown hold
      grind
    · grind

/-- The slots of a node after a refill: those from before, except for the one
that was refilled. -/
theorem slots_refillNode {owner c : NodeId} {index : Nat} {slot : Slot} {old : List NodeId}
    {n : Node} {j : Nat} {s : Slot}
    (hj : (refillNode owner index slot old c n).slots[j]? = some s) :
    (n.slots[j]? = some s ∧ (c = owner → j ≠ index)) ∨ (c = owner ∧ j = index ∧ s = slot) := by
  rw [refillNode] at hj
  dsimp only at hj
  by_cases hc : c = owner
  · rw [if_pos hc, List.getElem?_set] at hj
    by_cases hjk : index = j
    · rw [if_pos hjk] at hj
      split at hj
      · exact .inr ⟨hc, hjk.symm, (Option.some.inj hj).symm⟩
      · cases hj
    · rw [if_neg hjk] at hj
      exact .inl ⟨hj, fun _ h => hjk h.symm⟩
  · rw [if_neg hc] at hj
    exact .inl ⟨hj, fun h => absurd h hc⟩

/-- Admitted content owns nothing that another slot of the node owns. -/
theorem Admits.not_mem_other (h : f.Admits owner site slot) (hf : f.WellFormed) {n : Node}
    {j : Nat} {s : Slot} {c : NodeId} (hn : f.get? owner = some n)
    (hj : n.slots[j]? = some s) (hne : j ≠ site.index) (hc : c ∈ s.owned) :
    c ∉ slot.owned := by
  intro hnew
  by_cases hold : c ∈ f.ownedAt owner site.index
  · obtain ⟨n', s', hn', hs', hc'⟩ := mem_ownedAt.mp hold
    obtain rfl : n = n' := Option.some.inj (hn.symm.trans hn')
    exact hne (hf.slot_unique hn hj hs' hc hc')
  · have howns : f.Owns owner c := ⟨n, hn, Node.mem_owned.mpr ⟨j, s, hj, hc⟩⟩
    have hparent := hf.parent_iff.mpr howns
    rw [h.parent?_eq_none hnew hold] at hparent
    cases hparent

/-- What a property accepts does not depend on parents and slots. -/
theorem Accepts.refill {p : Property} {s : Slot} (h : f.Accepts p s) (owner : NodeId)
    (index : Nat) (slot : Slot) : (f.refill owner index slot).Accepts p s where
  kind_eq := h.kind_eq
  value_ok := h.value_ok
  child_ok := by
    intro c hc n hn expected hexpected
    rw [get?_refill, Option.map_eq_some_iff] at hn
    obtain ⟨n', hn', rfl⟩ := hn
    exact h.child_ok c hc n' hn' expected hexpected

/-- Content that a site admits is accepted by its property. -/
theorem Admits.accepts (h : f.Admits owner site slot) (hf : f.Sound) :
    f.Accepts site.property slot where
  kind_eq := h.kind_eq
  value_ok := h.value_ok
  child_ok := by
    intro c hc n hn expected hexpected
    by_cases hold : c ∈ f.ownedAt owner site.index
    · -- the check was made when `c` was adopted
      obtain ⟨o, t, ho, ht, hsite⟩ := h.site_mem
      obtain ⟨t', ht', -, hfits⟩ := hf.wellTyped ho
      obtain rfl : t = t' := by simpa using ht.symm.trans ht'
      obtain ⟨o', s, ho', hs, hcs⟩ := mem_ownedAt.mp hold
      obtain rfl : o = o' := Option.some.inj (ho.symm.trans ho')
      exact (hfits.accepts hsite hs).child_ok c hcs n hn expected hexpected
    · obtain ⟨n', hn', -, htyped⟩ := (h.adoptable c hc hold).free
      obtain rfl : n = n' := Option.some.inj (hn.symm.trans hn')
      exact htyped expected hexpected

theorem wellFormed_refill (h : f.Admits owner site slot) (hf : f.Sound) :
    (f.refill owner site.index slot).WellFormed where
  id_eq := by
    intro i n hn
    rw [get?_refill, Option.map_eq_some_iff] at hn
    obtain ⟨n', hn', rfl⟩ := hn
    exact hf.wellFormed.id_eq (n := n') hn'
  parent_iff := parent_iff_refill h hf
  nodup := by
    intro i n hn
    rw [get?_refill, Option.map_eq_some_iff] at hn
    obtain ⟨n', hn', rfl⟩ := hn
    have hbefore := Node.nodup_owned_iff.mp (hf.wellFormed.nodup hn')
    rw [Node.nodup_owned_iff]
    refine ⟨?_, ?_⟩
    · intro j s hj
      rcases slots_refillNode hj with ⟨hold, -⟩ | ⟨-, -, rfl⟩
      · exact hbefore.1 hold
      · exact h.nodup
    · intro j k s t c hj hk hs ht
      rcases slots_refillNode hj with ⟨hj', hjne⟩ | ⟨hi, rfl, rfl⟩
      · rcases slots_refillNode hk with ⟨hk', -⟩ | ⟨rfl, rfl, rfl⟩
        · exact hbefore.2 hj' hk' hs ht
        · exact absurd ht (h.not_mem_other hf.wellFormed hn' hj' (hjne rfl) hs)
      · rcases slots_refillNode hk with ⟨hk', hkne⟩ | ⟨-, rfl, -⟩
        · subst hi
          exact absurd hs (h.not_mem_other hf.wellFormed hn' hk' (hkne rfl) ht)
        · rfl
  target_mem := by
    intro i n j s t hn hj ht
    rw [get?_refill, Option.map_eq_some_iff] at hn
    obtain ⟨n', hn', rfl⟩ := hn
    rw [isSome_get?_refill]
    rcases slots_refillNode hj with ⟨hold, -⟩ | ⟨-, -, rfl⟩
    · exact hf.wellFormed.target_mem hn' hold ht
    · exact h.target_mem t ht
  acyclic := acyclic_refill h hf.wellFormed

theorem wellTyped_refill (h : f.Admits owner site slot) (hf : f.Sound) :
    (f.refill owner site.index slot).WellTyped := by
  intro i n hn
  rw [get?_refill, Option.map_eq_some_iff] at hn
  obtain ⟨n', hn', rfl⟩ := hn
  obtain ⟨t, ht, hconcrete, hfits⟩ := hf.wellTyped hn'
  refine ⟨t, ht, hconcrete, ?_, ?_⟩
  · rw [← hfits.length_eq, refillNode]
    dsimp only
    split <;> simp
  · intro j p s hp hj
    rcases slots_refillNode hj with ⟨hold, -⟩ | ⟨rfl, rfl, rfl⟩
    · exact (hfits.accepts hp hold).refill owner site.index slot
    · obtain ⟨o, t', ho, ht', hsite⟩ := h.site_mem
      obtain rfl : n' = o := Option.some.inj (hn'.symm.trans ho)
      obtain rfl : t = t' := by simpa using ht.symm.trans ht'
      obtain rfl : p = site.property := Option.some.inj (hp.symm.trans hsite)
      exact (h.accepts hf).refill i site.index s

/-- **Admitted content keeps a forest sound.** -/
theorem Sound.refill (hf : f.Sound) (h : f.Admits owner site slot) :
    (f.refill owner site.index slot).Sound :=
  ⟨wellFormed_refill h hf, wellTyped_refill h hf⟩

/-! ### Refilling twice, and with the same content -/

/-- Putting back what is there changes nothing. -/
theorem refill_of_slot (hf : f.WellFormed) {n : Node} {index : Nat}
    (hn : f.get? owner = some n) (hslot : n.slots[index]? = some slot) :
    f.refill owner index slot = f := by
  refine ext_get? rfl fun c => ?_
  rw [get?_refill]
  cases hc : f.get? c with
  | none => rfl
  | some k =>
      rw [Option.map_some, ownedAt_of_get? hn hslot, refillNode]
      have hparent : (if c ∈ slot.owned then some owner
          else if c ∈ slot.owned then none else k.parent) = k.parent := by
        split
        case isTrue hmem =>
          rw [← parent?_of_get? hc]
          exact (hf.parent_iff.mpr (owns_of_mem_ownedAt
            (mem_ownedAt.mpr ⟨n, slot, hn, hslot, hmem⟩))).symm
        case isFalse => rfl
      have hslots : (if c = owner then k.slots.set index slot else k.slots) = k.slots := by
        split
        case isTrue heq =>
          subst heq
          obtain rfl : k = n := Option.some.inj (hc.symm.trans hn)
          obtain ⟨hlt, rfl⟩ := List.getElem?_eq_some_iff.mp hslot
          exact List.set_getElem_self hlt
        case isFalse => rfl
      rw [hparent, hslots]

end TypedForest.Forest
