import TypedForest.Proofs.Forest.Attachment
import TypedForest.Proofs.Naming.Structural

/-!
# The way down

The ancestors of a node and the steps between them are found from below: each node asks
its parent for the slot that holds it.  Here they are read from above.  A step names a
property and, in a list of children, a place; following it goes from a node to the one
that stands there.  In a sound forest a node stands at one place only, which is the one
that its holder names, so the steps of its path lead from the root of its tree back to it.

## Main Definitions

* `Slot.at?`: the node at a place of a slot.
* `Forest.StandsAt`: a node stands where a step leads.
* `Forest.follow?`: the node that a step leads to.

## Main Results

* `Sound.standsAt_iff`: a node stands at the place that its holder names.
* `StandsAt.follow?_eq`: a step leads to the node that stands there.
* `Sound.path_holders`, `Sound.foldlM_path`: the steps of a path, and where they lead.
* `Forest.containment_path_exact`: ancestors, holders and paths of the nodes of a forest.
-/

namespace TypedForest

/-- The node at a place of a slot.  A single child has no place in a list. -/
def Slot.at? : Slot → Option Nat → Option NodeId
  | .child c, none => c
  | .children (some cs), some i => cs[i]?
  | _, _ => none

/-- In a list without repetitions a node has one place. -/
theorem getElem?_eq_some_iff_findIdx? {cs : List NodeId} (h : cs.Nodup) {i : Nat} {c : NodeId} :
    cs[i]? = some c ↔ cs.findIdx? (fun d => d == c) = some i := by
  rw [List.findIdx?_eq_some_iff_getElem, List.getElem?_eq_some_iff]
  constructor
  · rintro ⟨hi, rfl⟩
    refine ⟨hi, beq_self_eq_true _, fun j hj => ?_⟩
    rw [Bool.not_eq_true, beq_eq_false_iff_ne]
    intro heq
    have hji : j = i := h.getElem_inj_iff.mp heq
    omega
  · rintro ⟨hi, hc, -⟩
    exact ⟨hi, eq_of_beq hc⟩

theorem Slot.at?_eq_some_iff {s : Slot} (h : s.owned.Nodup) {index : Option Nat} {c : NodeId} :
    s.at? index = some c ↔ c ∈ s.owned ∧ s.indexOf? c = index := by
  cases s with
  | child o => cases o <;> cases index <;> simp [at?, owned, indexOf?, eq_comm]
  | children o =>
      cases o with
      | none => simp [at?, owned]
      | some cs =>
          cases index with
          | none =>
              constructor
              · simp [at?]
              · rintro ⟨hc, hnone⟩
                obtain ⟨i, hi⟩ := exists_findIdx?_of_mem hc
                cases hi.symm.trans hnone
          | some i =>
              show cs[i]? = some c ↔ c ∈ cs ∧ cs.findIdx? (fun d => d == c) = some i
              have hnodup : cs.Nodup := h
              rw [← getElem?_eq_some_iff_findIdx? hnodup]
              exact ⟨fun hi => ⟨List.mem_of_getElem? hi, hi⟩, And.right⟩
  | value | ignored | reference => simp [at?, owned]

namespace Forest

variable {f : Forest} {p c : NodeId} {step : Path.Step}

/-- The step leads from `p` to `c`: a slot of `p` that belongs to a property of that name,
public or not, holds `c` at the place that the step names. -/
def StandsAt (f : Forest) (p : NodeId) (step : Path.Step) (c : NodeId) : Prop :=
  ∃ facets, f.facets p = .ok facets ∧
    ∃ facet ∈ facets, facet.property.name = step.property ∧ facet.slot.at? step.index = some c

/-- The node that a step leads to. -/
def follow? (f : Forest) (p : NodeId) (step : Path.Step) : Option NodeId := do
  let facets ← (f.facets p).toOption
  let facet ← facets.find? fun facet => facet.property.name == step.property
  facet.slot.at? step.index

/-! ### Places of nodes -/

/-- The properties of a node come with the slots that belong to them. -/
theorem hasSlot_of_mem_facets {facets : List Facet} {facet : Facet} (h : f.facets p = .ok facets)
    (hfacet : facet ∈ facets) : ∃ j, f.HasSlot p ⟨j, facet.property⟩ facet.slot := by
  obtain ⟨n, hn, h⟩ := bind_eq_ok.mp h
  obtain ⟨t, ht, h⟩ := bind_eq_ok.mp h
  obtain rfl := Except.ok.inj h
  obtain ⟨j, hproperty, hs⟩ := mem_zipWith_facet.mp hfacet
  exact ⟨j, n, t, node_eq_ok.mp hn, ht, hproperty, hs⟩

/-- A node stands where the slot that holds it has it. -/
theorem WellFormed.standsAt_iff_holds (hf : f.WellFormed) :
    f.StandsAt p step c ↔
      ∃ j property s, f.Holds p j property s c ∧ step = ⟨property.name, s.indexOf? c⟩ := by
  constructor
  · rintro ⟨facets, hfacets, facet, hfacet, hname, hat⟩
    obtain ⟨j, hslot⟩ := hasSlot_of_mem_facets hfacets hfacet
    obtain ⟨hc, hindex⟩ := (Slot.at?_eq_some_iff (hslot.nodup_owned hf)).mp hat
    exact ⟨j, facet.property, facet.slot, ⟨hslot, hc⟩, by rw [hindex, hname]⟩
  · rintro ⟨j, property, s, hholds, rfl⟩
    obtain ⟨n, t, hn, ht, hproperty, hs⟩ := hholds.site
    refine ⟨_, facets_of_get? hn ht, ⟨property, s⟩,
      mem_zipWith_facet.mpr ⟨j, hproperty, hs⟩, rfl, ?_⟩
    exact (Slot.at?_eq_some_iff (hholds.hasSlot.nodup_owned hf)).mpr ⟨hholds.mem, rfl⟩

/-- **A node stands at one place only**, the one that its holder names. -/
theorem Sound.standsAt_iff (hf : f.Sound) :
    f.StandsAt p step c ↔ f.parent? c = some p ∧ f.holder? c = some step := by
  rw [hf.wellFormed.standsAt_iff_holds]
  constructor
  · rintro ⟨j, property, s, hholds, rfl⟩
    exact ⟨hholds.parent?_eq hf.wellFormed, hholds.holder?_eq hf.wellFormed⟩
  · rintro ⟨hparent, hholder⟩
    obtain ⟨j, property, s, hholds⟩ := hf.exists_holds hparent
    exact ⟨j, property, s, hholds,
      Option.some.inj (hholder.symm.trans (hholds.holder?_eq hf.wellFormed))⟩

/-- An owned node has a holder. -/
theorem Sound.exists_holder (hf : f.Sound) (h : f.parent? c = some p) :
    ∃ step, f.holder? c = some step := by
  obtain ⟨j, property, s, hholds⟩ := hf.exists_holds h
  exact ⟨_, hholds.holder?_eq hf.wellFormed⟩

theorem Sound.isSome_holder?_iff (hf : f.Sound) :
    (f.holder? c).isSome ↔ (f.parent? c).isSome := by
  constructor
  · intro h
    obtain ⟨step, hstep⟩ := Option.isSome_iff_exists.mp h
    obtain ⟨p, hp, -⟩ := Option.bind_eq_some_iff.mp hstep
    exact Option.isSome_of_eq_some hp
  · intro h
    obtain ⟨p, hp⟩ := Option.isSome_iff_exists.mp h
    exact Option.isSome_iff_exists.mpr (hf.exists_holder hp)

/-- **A step leads to the node that stands there.**  The properties of a type have different
names, so the one that is found by its name is the one that holds the node. -/
theorem StandsAt.follow?_eq (h : f.StandsAt p step c) (hm : f.metamodel.Built) :
    f.follow? p step = some c := by
  obtain ⟨facets, hfacets, facet, hfacet, hname, hat⟩ := h
  have hsome : (facets.find? fun facet => facet.property.name == step.property).isSome :=
    List.find?_isSome.mpr ⟨facet, hfacet, beq_iff_eq.mpr hname⟩
  obtain ⟨found, hfound⟩ := Option.isSome_iff_exists.mp hsome
  obtain ⟨j, hslot⟩ := hasSlot_of_mem_facets hfacets hfacet
  obtain ⟨k, hslot'⟩ := hasSlot_of_mem_facets hfacets (List.mem_of_find?_eq_some hfound)
  have hbeq := List.find?_some hfound
  have hsame : found.property.name = step.property := beq_iff_eq.mp hbeq
  rw [hslot.eq_of_name hslot' hm (hname.trans hsame.symm)] at hat
  simp [follow?, hfacets, Except.toOption, hfound, hat]

/-! ### Paths -/

/-- The path of a child goes one step further than that of its parent. -/
theorem Sound.path_concat (hf : f.Sound) (hparent : f.parent? c = some p)
    (hholder : f.holder? c = some step) : f.path c = f.path p ++ [step] := by
  obtain ⟨j, property, s, hholds⟩ := hf.exists_holds hparent
  rw [hholds.path_eq hf.wellFormed,
    Option.some.inj ((hholds.holder?_eq hf.wellFormed).symm.trans hholder)]

/-- **A path has one step for each ancestor**: from the root down, the holders of the nodes
on the way. -/
theorem Sound.path_holders (hf : f.Sound) (c : NodeId) :
    (f.path c).map some = ((c :: f.ancestors c).dropLast.map f.holder?).reverse := by
  induction c using hf.wellFormed.down_induction with
  | root c h =>
      rw [hf.path_of_free h, hf.wellFormed.ancestors_of_free h]
      rfl
  | child c p h ih =>
      obtain ⟨step, hstep⟩ := hf.exists_holder h
      rw [hf.path_concat h hstep, hf.wellFormed.ancestors_cons h, List.map_append, ih,
        List.dropLast_cons_of_ne_nil (List.cons_ne_nil _ _)]
      simp [hstep]

/-- **The steps of a path lead from the root of the tree to the node.** -/
theorem Sound.foldlM_path (hf : f.Sound) (hm : f.metamodel.Built) (c : NodeId) :
    (f.path c).foldlM f.follow? (f.topmost c) = some c := by
  induction c using hf.wellFormed.down_induction with
  | root c h =>
      rw [hf.path_of_free h, hf.wellFormed.topmost_of_free h]
      rfl
  | child c p h ih =>
      obtain ⟨step, hstep⟩ := hf.exists_holder h
      have hfollow : f.follow? p step = some c :=
        (hf.standsAt_iff.mpr ⟨h, hstep⟩).follow?_eq hm
      rw [hf.path_concat h hstep, hf.wellFormed.topmost_of_parent h, List.foldlM_append, ih]
      simp [hfollow]

/-- From a node upwards, each one is the parent of the one before. -/
theorem WellFormed.isChain_ancestors (hf : f.WellFormed) (c : NodeId) :
    List.IsChain f.IsParent (c :: f.ancestors c) := by
  induction c using hf.down_induction with
  | root c h =>
      rw [hf.ancestors_of_free h]
      exact .singleton c
  | child c p h ih =>
      rw [hf.ancestors_cons h]
      exact .cons_cons h ih

/-- **Paths lead back to their nodes.**  In every forest that edits lead to, the ancestors of
a node are the whole chain of its parents, without repetitions, up to a node that has none.
A node has a holder if it has a parent.  It stands nowhere but at the place in a slot of the
parent that the holder names, and no second slot has it.  From the root down, the holders of
the nodes on the chain are one step for each ancestor; they lead through the slots back to
the node, and they are what its readable path and its structural identifier spell out. -/
theorem containment_path_exact {m : Metamodel} (hm : m.Built) {f : Forest} (hf : Reachable m f)
    {x : NodeId} (hx : (f.get? x).isSome) :
    (List.IsChain (fun c p => f.parent? c = some p) (x :: f.ancestors x) ∧
      (x :: f.ancestors x).Nodup ∧ (f.ancestors x).length < f.size ∧
      f.parent? (f.topmost x) = none) ∧
    ((f.holder? x).isSome ↔ (f.parent? x).isSome) ∧
    (∀ p step, f.StandsAt p step x ↔ f.parent? x = some p ∧ f.holder? x = some step) ∧
    (∀ p n (j k : Nat) s t, f.get? p = some n → n.slots[j]? = some s → n.slots[k]? = some t →
      x ∈ s.owned → x ∈ t.owned → j = k) ∧
    ∃ steps : Path,
      steps.map some = ((x :: f.ancestors x).dropLast.map f.holder?).reverse ∧
      steps.length = (f.ancestors x).length ∧
      steps.foldlM f.follow? (f.topmost x) = some x ∧
      f.pathText x = steps.text "root" ∧
      ∀ space, (Namer.structural space).next f x () =
        (some s!"{Namer.safeText space}-{steps.identifier}", ()) := by
  have hsound := hf.sound
  have hwf := hsound.wellFormed
  have hbuilt : f.metamodel.Built := hf.metamodel_eq ▸ hm
  have hchain : List.IsChain (fun c p => f.parent? c = some p) (x :: f.ancestors x) :=
    hwf.isChain_ancestors x
  have hlength : (f.path x).length = (f.ancestors x).length := by
    simpa using congrArg List.length (hsound.path_holders x)
  refine ⟨⟨hchain, hwf.nodup_cons_ancestors x, hwf.depth_lt_size hx, hwf.parent?_topmost x⟩,
    hsound.isSome_holder?_iff, fun p step => hsound.standsAt_iff, ?_, ?_⟩
  · intro p n j k s t hn hs ht hxs hxt
    exact hwf.slot_unique hn hs ht hxs hxt
  · exact ⟨f.path x, hsound.path_holders x, hlength, hsound.foldlM_path hbuilt x, rfl,
      fun space => next_structural hx⟩

/-- A part of a crate that is hidden in another. -/
theorem containment_path_exact_crates :
    crateForest.ancestors ⟨2⟩ = [⟨1⟩, ⟨0⟩] ∧
    crateForest.pathText ⟨2⟩ = "root.inner.parts[0]" ∧
    (∀ p step, crateForest.StandsAt p step ⟨2⟩ ↔ p = ⟨1⟩ ∧ step = ⟨"parts", some 0⟩) ∧
    [⟨"inner", none⟩, ⟨"parts", some 0⟩].foldlM crateForest.follow? ⟨0⟩ = some ⟨2⟩ := by
  have hreach : Reachable crateModel crateForest := ⟨_, rfl⟩
  have hpart : (crateForest.get? ⟨2⟩).isSome := by decide +kernel
  have hparent : crateForest.parent? ⟨2⟩ = some ⟨1⟩ := by decide +kernel
  have hholder : crateForest.holder? ⟨2⟩ = some ⟨"parts", some 0⟩ := by decide +kernel
  have htop : crateForest.topmost ⟨2⟩ = ⟨0⟩ := by decide +kernel
  obtain ⟨-, -, hstands, -, steps, hholders, -, hfold, htext, -⟩ :=
    containment_path_exact crateModel_built hreach hpart
  have hsteps : steps = [⟨"inner", none⟩, ⟨"parts", some 0⟩] :=
    List.map_injective_iff.mpr (Option.some_injective _) (hholders.trans (by decide +kernel))
  rw [hsteps] at hfold htext
  rw [htop] at hfold
  refine ⟨by decide +kernel, htext.trans (by decide +kernel), fun p step => ?_, hfold⟩
  rw [hstands, hparent, hholder]
  simp [eq_comm]

end Forest

end TypedForest
