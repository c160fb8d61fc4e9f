import Mathlib.Data.List.Nodup
import Mathlib.Logic.Relation
import TypedForest.Forest.Edit

/-!
# Well-formed forests

The type `Forest` lets parents and slots disagree.  Two predicates say when they
do not.  `WellFormed` is about the shape: numbers, parents and owned nodes tell
one story, and nobody is above itself.  `WellTyped` is about the metamodel: every
node has a concrete type, and its slots are those of the type.

All changes of slots are instances of one operation, `refill`: new content goes
into a slot, whoever it owns gets the owner as parent, and whoever the old
content owned and the new one does not becomes free.

## Main Definitions

* `Forest.Owns`, `Forest.IsParent`: the two copies of the containment relation.
* `Forest.WellFormed`, `Forest.WellTyped`, `Forest.Sound`: the invariants.
* `Forest.refill`: new content for a slot.
* `Forest.Admits`: when `refill` keeps a forest sound.

## Design Notes

`WellFormed` asks for distinct owned nodes only within each node.  Across nodes
they are distinct because a node has one parent (`WellFormed.nodup_owned`).
-/

namespace TypedForest

/-- The node that a reference in the slot is resolved to. -/
def Slot.target? : Slot → Option NodeId
  | .reference (some r) => r.target
  | _ => none

/-- The nodes that a node owns, slot by slot. -/
def Node.owned (n : Node) : List NodeId := n.slots.flatMap Slot.owned

theorem Node.mem_owned {n : Node} {c : NodeId} :
    c ∈ n.owned ↔ ∃ (j : Nat) (s : Slot), n.slots[j]? = some s ∧ c ∈ s.owned := by
  rw [owned, List.mem_flatMap]
  constructor
  · rintro ⟨s, hs, hc⟩
    obtain ⟨j, hj⟩ := List.mem_iff_getElem?.mp hs
    exact ⟨j, s, hj, hc⟩
  · rintro ⟨j, s, hj, hc⟩
    exact ⟨s, List.mem_of_getElem? hj, hc⟩

/-- No node is owned twice exactly if no slot owns a node twice and no two slots
own the same node. -/
theorem Node.nodup_owned_iff {n : Node} :
    n.owned.Nodup ↔
      (∀ {j : Nat} {s : Slot}, n.slots[j]? = some s → s.owned.Nodup) ∧
      ∀ {j k : Nat} {s t : Slot} {c : NodeId}, n.slots[j]? = some s → n.slots[k]? = some t →
        c ∈ s.owned → c ∈ t.owned → j = k := by
  rw [owned, List.nodup_flatMap, List.pairwise_iff_getElem]
  constructor
  · rintro ⟨hslot, hdisjoint⟩
    refine ⟨fun hj => hslot _ (List.mem_of_getElem? hj), ?_⟩
    intro j k s t c hj hk hcs hct
    obtain ⟨hj', rfl⟩ := List.getElem?_eq_some_iff.mp hj
    obtain ⟨hk', rfl⟩ := List.getElem?_eq_some_iff.mp hk
    rcases Nat.lt_trichotomy j k with hlt | heq | hgt
    · exact absurd hct (hdisjoint j k hj' hk' hlt hcs)
    · exact heq
    · exact absurd hcs (hdisjoint k j hk' hj' hgt hct)
  · rintro ⟨hslot, hunique⟩
    constructor
    · intro s hs
      obtain ⟨j, hj⟩ := List.mem_iff_getElem?.mp hs
      exact hslot hj
    · intro j k hj hk hlt c hcs hct
      have heq := hunique (List.getElem?_eq_getElem hj) (List.getElem?_eq_getElem hk) hcs hct
      omega

namespace Forest

/-- One of the slots of `p` owns `c`. -/
def Owns (f : Forest) (p c : NodeId) : Prop := ∃ n, f.get? p = some n ∧ c ∈ n.owned

/-- The parent of `c` is `p`. -/
def IsParent (f : Forest) (c p : NodeId) : Prop := f.parent? c = some p

/-- Numbers, parents and owned nodes agree, and no node is above itself. -/
structure WellFormed (f : Forest) : Prop where
  id_eq : ∀ {i : NodeId} {n : Node}, f.get? i = some n → n.id = i
  parent_iff : ∀ {c p : NodeId}, f.parent? c = some p ↔ f.Owns p c
  nodup : ∀ {i : NodeId} {n : Node}, f.get? i = some n → n.owned.Nodup
  target_mem : ∀ {i : NodeId} {n : Node} {j : Nat} {s : Slot} {t : NodeId},
    f.get? i = some n → n.slots[j]? = some s → s.target? = some t → (f.get? t).isSome
  acyclic : ∀ c, ¬ Relation.TransGen f.IsParent c c

/-- The content is of the kind of the property and passes its checks. -/
structure Accepts (f : Forest) (p : Property) (s : Slot) : Prop where
  kind_eq : s.kind = p.kind
  value_ok : ∀ v, s = .value v → f.checkValue p v = .ok ()
  child_ok : ∀ c ∈ s.owned, ∀ n, f.get? c = some n → ∀ expected,
    p.childType = some expected → f.metamodel.assignable n.type expected = true

/-- The check of a value asks the metamodel only. -/
theorem checkValue_of_metamodel_eq {f g : Forest} (hm : g.metamodel = f.metamodel)
    (p : Property) (v : Value) : g.checkValue p v = f.checkValue p v := by
  unfold checkValue
  rw [hm]

/-- A node has one slot for each property of the type, and each accepts its
content. -/
structure Fits (f : Forest) (n : Node) (t : NodeType) : Prop where
  length_eq : n.slots.length = t.effective.length
  accepts : ∀ {j : Nat} {p : Property} {s : Slot},
    t.effective[j]? = some p → n.slots[j]? = some s → f.Accepts p s

/-- Every property of the type has a slot, and it accepts its content. -/
theorem Fits.exists_slot {f : Forest} {n : Node} {t : NodeType} (h : f.Fits n t) {j : Nat}
    {p : Property} (hp : t.effective[j]? = some p) :
    ∃ s, n.slots[j]? = some s ∧ f.Accepts p s := by
  have hlt : j < n.slots.length := by
    rw [h.length_eq]
    exact (List.getElem?_eq_some_iff.mp hp).1
  exact ⟨_, List.getElem?_eq_getElem hlt, h.accepts hp (List.getElem?_eq_getElem hlt)⟩

/-- Every slot belongs to a property of the type. -/
theorem Fits.exists_property {f : Forest} {n : Node} {t : NodeType} (h : f.Fits n t) {j : Nat}
    {s : Slot} (hs : n.slots[j]? = some s) : ∃ p, t.effective[j]? = some p := by
  have hlt : j < t.effective.length := by
    rw [← h.length_eq]
    exact (List.getElem?_eq_some_iff.mp hs).1
  exact ⟨_, List.getElem?_eq_getElem hlt⟩

/-- Every node fits a concrete type of the metamodel. -/
def WellTyped (f : Forest) : Prop :=
  ∀ {i : NodeId} {n : Node}, f.get? i = some n →
    ∃ t, f.metamodel.type n.type = .ok t ∧ t.isAbstract = false ∧ f.Fits n t

/-- A forest in order: well-formed and well-typed. -/
structure Sound (f : Forest) : Prop where
  wellFormed : f.WellFormed
  wellTyped : f.WellTyped

/-! ### Looking up nodes -/

/-- Forests over one metamodel with the same nodes are equal. -/
theorem ext_get? {f g : Forest} (hm : f.metamodel = g.metamodel)
    (h : ∀ i, f.get? i = g.get? i) : f = g := by
  obtain ⟨m, nodes⟩ := f
  obtain ⟨m', nodes'⟩ := g
  obtain rfl : m = m' := hm
  have hnodes : nodes = nodes' := by
    apply List.ext_getElem?
    intro i
    exact h ⟨i⟩
  rw [hnodes]

theorem get?_isSome_iff (f : Forest) (i : NodeId) : (f.get? i).isSome ↔ i.index < f.size := by
  simp [get?, size]

theorem parent?_eq_some {f : Forest} {c p : NodeId} :
    f.parent? c = some p ↔ ∃ n, f.get? c = some n ∧ n.parent = some p := by
  simp [parent?, Option.bind_eq_some_iff]

theorem parent?_of_get? {f : Forest} {c : NodeId} {n : Node} (h : f.get? c = some n) :
    f.parent? c = n.parent := by
  simp [parent?, h]

theorem isSome_of_parent? {f : Forest} {c p : NodeId} (h : f.parent? c = some p) :
    (f.get? c).isSome := by
  obtain ⟨n, hn, -⟩ := parent?_eq_some.mp h
  simp [hn]

theorem Owns.isSome_owner {f : Forest} {p c : NodeId} (h : f.Owns p c) :
    (f.get? p).isSome := by
  obtain ⟨n, hn, -⟩ := h
  simp [hn]

namespace WellFormed

variable {f : Forest}

/-- Owned nodes exist. -/
theorem isSome_of_owns (hf : f.WellFormed) {p c : NodeId} (h : f.Owns p c) :
    (f.get? c).isSome :=
  isSome_of_parent? (hf.parent_iff.mpr h)

/-- A node is owned by one node only. -/
theorem owner_unique (hf : f.WellFormed) {p q c : NodeId} (hp : f.Owns p c)
    (hq : f.Owns q c) : p = q := by
  have h := (hf.parent_iff.mpr hp).symm.trans (hf.parent_iff.mpr hq)
  exact Option.some.inj h

/-- Over all slots of all nodes, each node is owned at one place only. -/
theorem nodup_owned (hf : f.WellFormed) : (f.nodes.flatMap Node.owned).Nodup := by
  rw [List.nodup_flatMap]
  constructor
  · intro n hn
    obtain ⟨i, hi⟩ := List.mem_iff_getElem?.mp hn
    exact hf.nodup (i := ⟨i⟩) hi
  · rw [List.pairwise_iff_getElem]
    intro i j hi hj hij c hci hcj
    have hp : f.Owns ⟨i⟩ c := ⟨f.nodes[i], List.getElem?_eq_getElem hi, hci⟩
    have hq : f.Owns ⟨j⟩ c := ⟨f.nodes[j], List.getElem?_eq_getElem hj, hcj⟩
    have heq : i = j := congrArg NodeId.index (hf.owner_unique hp hq)
    omega

/-- A node is owned by one slot of its owner only. -/
theorem slot_unique (hf : f.WellFormed) {p c : NodeId} {n : Node} {j k : Nat} {s t : Slot}
    (hn : f.get? p = some n) (hj : n.slots[j]? = some s) (hk : n.slots[k]? = some t)
    (hs : c ∈ s.owned) (ht : c ∈ t.owned) : j = k :=
  (Node.nodup_owned_iff.mp (hf.nodup hn)).2 hj hk hs ht

end WellFormed

/-! ### New content for a slot -/

/-- The nodes that a slot of a node owns. -/
def ownedAt (f : Forest) (owner : NodeId) (index : Nat) : List NodeId :=
  (((f.get? owner).bind fun n => n.slots[index]?).map Slot.owned).getD []

/-- A node after the slot of `owner` got new content in place of one that owned
the nodes `old`. -/
def refillNode (owner : NodeId) (index : Nat) (slot : Slot) (old : List NodeId) (c : NodeId)
    (n : Node) : Node :=
  { n with
    parent := if c ∈ slot.owned then some owner else if c ∈ old then none else n.parent
    slots := if c = owner then n.slots.set index slot else n.slots }

/-- Put new content into a slot.  Whoever it owns gets `owner` as parent, and
whoever only the old content owned becomes free. -/
def refill (f : Forest) (owner : NodeId) (index : Nat) (slot : Slot) : Forest :=
  { f with
    nodes := f.nodes.mapIdx fun i n =>
      refillNode owner index slot (f.ownedAt owner index) ⟨i⟩ n }

@[simp] theorem metamodel_refill (f : Forest) (owner : NodeId) (index : Nat) (slot : Slot) :
    (f.refill owner index slot).metamodel = f.metamodel := rfl

theorem get?_refill (f : Forest) (owner : NodeId) (index : Nat) (slot : Slot) (c : NodeId) :
    (f.refill owner index slot).get? c =
      (f.get? c).map (refillNode owner index slot (f.ownedAt owner index) c) := by
  simp [refill, get?]

@[simp] theorem size_refill (f : Forest) (owner : NodeId) (index : Nat) (slot : Slot) :
    (f.refill owner index slot).size = f.size := by
  simp [refill, size]

theorem mem_ownedAt {f : Forest} {owner c : NodeId} {index : Nat} :
    c ∈ f.ownedAt owner index ↔
      ∃ n s, f.get? owner = some n ∧ n.slots[index]? = some s ∧ c ∈ s.owned := by
  unfold ownedAt
  cases hn : f.get? owner with
  | none => simp
  | some n =>
      cases hs : n.slots[index]? with
      | none => simp [hs]
      | some s => simp [hs]

theorem ownedAt_of_get? {f : Forest} {owner : NodeId} {n : Node} {index : Nat} {s : Slot}
    (hn : f.get? owner = some n) (hs : n.slots[index]? = some s) :
    f.ownedAt owner index = s.owned := by
  simp [ownedAt, hn, hs]

theorem owns_of_mem_ownedAt {f : Forest} {owner c : NodeId} {index : Nat}
    (h : c ∈ f.ownedAt owner index) : f.Owns owner c := by
  obtain ⟨n, s, hn, hs, hc⟩ := mem_ownedAt.mp h
  exact ⟨n, hn, Node.mem_owned.mpr ⟨index, s, hs, hc⟩⟩

/-- A free node that may become a child of `owner`: it is of the right type, and
it is neither `owner` nor above it. -/
structure Adoptable (f : Forest) (owner : NodeId) (p : Property) (c : NodeId) : Prop where
  free : ∃ n, f.get? c = some n ∧ n.parent = none ∧
    ∀ expected, p.childType = some expected → f.metamodel.assignable n.type expected = true
  not_above : ¬ Relation.ReflTransGen f.IsParent owner c

/-- The slot at a site of `owner` may take the new content. -/
structure Admits (f : Forest) (owner : NodeId) (site : Site) (slot : Slot) : Prop where
  site_mem : ∃ n t, f.get? owner = some n ∧ f.metamodel.type n.type = .ok t ∧
    t.effective[site.index]? = some site.property
  kind_eq : slot.kind = site.property.kind
  value_ok : ∀ v, slot = .value v → f.checkValue site.property v = .ok ()
  nodup : slot.owned.Nodup
  adoptable : ∀ c ∈ slot.owned, c ∉ f.ownedAt owner site.index →
    f.Adoptable owner site.property c
  target_mem : ∀ t, slot.target? = some t → (f.get? t).isSome

end Forest

end TypedForest
