import TypedForest.Proofs.Document.Image

/-!
# Reading features back

The second pass over the records of a tree, in whatever order they come.  Each
entry of a record fills one slot with its image.  What a program fills and what it
leaves alone is stated by `Fills`, so that programs for different slots can be put
together: entries to the parts of a record, parts to records, and records to the
whole pass.

## Main Definitions

* `Document.Fills`: what a program fills, with everything else unchanged.

## Main Results

* `Partway.addProperty`, `Partway.addChildren`, `Partway.addReference`: one entry.
* `Fills.andThen`, `Fills.forM`: programs one after the other.
* `Source.fills_addFeatures`: one record.
* `Source.exists_filled`: the whole pass.
-/

namespace TypedForest

namespace Document

variable {σ : Type} [Schema σ] {schema : σ} {f g : Forest} {root : NodeId} {order : List NodeId}
  {space : String} {fill : NodeId → String → Slot} {v : NodeId} {facet : Facet}

/-! ### Features -/

/-- The pointer of a visible property leads back to it. -/
theorem Source.featureOf_eq (h : Source schema f root order) (hv : v ∈ order)
    (hfacet : facet ∈ f.visible v) (hm : g.metamodel = f.metamodel) (r : Record) :
    featureOf schema (f.typeOf v) r (Schema.pointer schema (f.typeOf v) facet.property.name) g =
      .ok (some facet.property) := by
  obtain ⟨n, t, -, ht, -, -, htype, htable⟩ := h.exists_node hv
  obtain ⟨-, j, -, hp, -, hpublic, -⟩ := h.site_of_mem_visible hv hfacet
  have hmem := List.mem_of_getElem? hp
  have hnodup := h.nodup_table hv
  rw [← htype] at ht
  obtain ⟨-, hproperties⟩ := h.covers v (h.mem_preorder hv) t ht
  rw [htable] at hmem hnodup
  obtain ⟨pointer, hpointer⟩ :=
    Option.isSome_iff_exists.mp (hproperties facet.property hmem hpublic)
  obtain ⟨hresolved, hback⟩ := h.faithful.property_eq hpointer
  rw [Schema.pointer, hpointer, Option.getD_some, featureOf, if_pos hresolved, hback]
  simp only [bind, Except.bind, hm, ht, NodeType.property?_eq_some hnodup hmem]

/-- An entry for a visible property is handled by the edit for its kind. -/
theorem Source.withFeature_eq (h : Source schema f root order) (hv : v ∈ order)
    (hfacet : facet ∈ f.visible v) (hm : g.metamodel = f.metamodel) (r : Record)
    (group : FeatureGroup) {kinds : List Kind} (hkind : facet.property.kind ∈ kinds)
    (edit : Property → Edit Unit) :
    withFeature schema (f.typeOf v) r
        (Schema.pointer schema (f.typeOf v) facet.property.name) group kinds edit g =
      edit facet.property g := by
  have hcontains : kinds.contains facet.property.kind = true := by simpa using hkind
  rw [withFeature, Edit.ask_bind_of_ok _ (h.featureOf_eq hv hfacet hm r)]
  simp only [hcontains, if_true]

theorem readValue_wire {x w : Value} {p : Property} (r : Record)
    (h : x.reread p.valueType = some w) : readValue r p x.wire = .ok w := by
  unfold Value.reread at h
  cases hwire : x.wire with
  | none =>
      rw [hwire] at h
      obtain rfl := Option.some.inj h
      rfl
  | some text =>
      simp only [hwire] at h
      simp only [readValue, h]

/-- **An attribute is read back.** -/
theorem Partway.addProperty (hg : Partway f order g fill) (h : Source schema f root order)
    (hv : v ∈ order) (hfacet : facet ∈ f.visible v) {entry : PropertyEntry}
    (hentry : asProperty? schema (f.typeOf v) facet = some entry) (r : Record) :
    ∃ g', Document.addProperty schema (entryFor space f order v) r entry g = .ok () g' ∧
      Partway f order g' (put fill v facet.property.name (image order facet)) := by
  obtain ⟨p, slot⟩ := facet
  have haccepts := h.accepts hv hfacet
  obtain ⟨j, hj, hlocate⟩ := hg.exists_locate h hv hfacet
  cases slot with
  | value x =>
      obtain rfl := Option.some.inj hentry
      have hkind : p.kind = .value := haccepts.kind_eq.symm
      obtain ⟨w, hread, hcheck, -⟩ := Forest.exists_reread (haccepts.value_ok x rfl)
      have hvalue : g.checkValue p w = .ok () :=
        (Forest.checkValue_of_metamodel_eq hg.metamodel_eq p w).trans hcheck
      have himage : image order ⟨p, .value x⟩ = .value w := by
        simp only [image, hread, Option.getD_some]
      have heffect : (Command.setValue (number order v) p.name w).effect g =
          .ok (.refilled (number order v) ⟨j, p⟩ (.value w)) := by
        simp only [hkind] at hlocate
        simp only [Command.effect, hlocate, hvalue, bind, Except.bind, pure, Except.pure]
      obtain ⟨g', hedit, hg'⟩ := hg.step h hv hfacet hj heffect (by simp [Slot.owned])
      refine ⟨g', ?_, himage ▸ hg'⟩
      rw [Document.addProperty]
      show withFeature schema (f.typeOf v) r (Schema.pointer schema (f.typeOf v) p.name) _ _ _ g = _
      rw [h.withFeature_eq hv hfacet hg.metamodel_eq r .property (by simp [hkind])]
      rw [Edit.ask_bind_of_ok _ (readValue_wire r hread)]
      exact hedit
  | child c => cases hentry
  | children cs => cases hentry
  | ignored => cases hentry
  | reference ref => cases hentry

/-- The content of a slot in the making. -/
theorem Partway.exists_slotAt (hg : Partway f order g fill) (hv : v ∈ order) {j : Nat}
    {p : Property} (hj : (f.table v)[j]? = some p) :
    ∃ n, g.node (number order v) = .ok n ∧ n.slotAt ⟨j, p⟩ = fill v p.name := by
  obtain ⟨parent, hnode⟩ := hg.node v hv
  refine ⟨_, by rw [Forest.node, hnode], ?_⟩
  simp [Node.slotAt, hj]

/-- The children that a record lists are the images of the children. -/
theorem Source.childNodes_eq (h : Source schema f root order) (hv : v ∈ order)
    (hfacet : facet ∈ f.visible v) (r : Record) :
    childNodes (order.map (entryFor space f order)) r
        (facet.slot.owned.filterMap (f.treeName? space root)) =
      .ok (facet.slot.owned.map (number order)) := by
  have hmem : ∀ c ∈ facet.slot.owned, c ∈ order :=
    fun c hc => (h.child_of_mem_owned hv hfacet hc).2
  have hnames : facet.slot.owned.filterMap (f.treeName? space root) =
      facet.slot.owned.map (f.structuralId space) := by
    rw [← List.filterMap_eq_map]
    exact List.filterMap_congr fun c hc => treeName?_of_mem (h.mem_preorder (hmem c hc))
  rw [childNodes, hnames, List.mapM_map]
  refine mapM_eq_ok fun c hc => ?_
  simp only [Function.comp_apply, h.nodeOf?_eq (List.Subset.refl order) (hmem c hc),
    if_pos (hmem c hc)]

/-- A single child takes its place. -/
theorem Partway.setChild (hg : Partway f order g fill) (h : Source schema f root order)
    (hv : v ∈ order) (hfacet : facet ∈ f.visible v) {c : Option NodeId}
    (hslot : facet.slot = .child c) (hkind : facet.property.kind = .single)
    (hempty : fill v facet.property.name = Slot.empty facet.property.kind) :
    ∃ g', Edit.setChild (number order v) facet.property.name (c.map (number order)) g =
        .ok () g' ∧
      Partway f order g' (put fill v facet.property.name (image order facet)) := by
  obtain ⟨j, hj, hlocate⟩ := hg.exists_locate h hv hfacet
  obtain ⟨n, hnode, hat⟩ := hg.exists_slotAt hv hj
  have himage : image order facet = .child (c.map (number order)) := by
    simp only [image, hslot]
  have hsingle : (n.slotAt ⟨j, facet.property⟩).single? = none := by
    rw [hat, hempty, hkind]
    rfl
  have hadopt : ∀ d ∈ c.map (number order),
      g.checkAdoption (number order v) d facet.property = .ok () := by
    intro d hd
    obtain ⟨c, rfl, rfl⟩ := Option.map_eq_some_iff.mp hd
    refine hg.sound.wellFormed.checkAdoption_eq_ok_iff.mpr
      (hg.adoptable h hv hfacet (c := c) (by simp [hslot, Slot.owned]) ?_)
    simp [hempty]
  have heffect : (Command.setChild (number order v) facet.property.name
      (c.map (number order))).effect g =
      .ok (.refilled (number order v) ⟨j, facet.property⟩ (.child (c.map (number order)))) := by
    rw [hkind] at hlocate
    simp only [Command.effect, hlocate, hnode, hsingle, bind, Except.bind, pure, Except.pure]
    cases c with
    | none => rfl
    | some c => simp [Option.forM, hadopt]
  obtain ⟨g', hedit, hg'⟩ := hg.step h hv hfacet hj heffect <| by
    rw [← himage, owned_image]
    intro d hd
    obtain ⟨c, hc, rfl⟩ := List.mem_map.mp hd
    exact ⟨c, hc, rfl⟩
  exact ⟨g', hedit, himage ▸ hg'⟩

/-- One more child takes its place behind the others. -/
theorem Partway.append (hg : Partway f order g fill) (h : Source schema f root order)
    (hv : v ∈ order) (hfacet : facet ∈ f.visible v) (hkind : facet.property.kind = .multiple)
    {done rest : List NodeId} {c : NodeId} (howned : facet.slot.owned = done ++ c :: rest)
    (hdone : fill v facet.property.name = .children (some (done.map (number order)))) :
    ∃ g', Edit.append (number order v) facet.property.name (number order c) g = .ok () g' ∧
      Partway f order g' (put fill v facet.property.name
        (.children (some ((done ++ [c]).map (number order))))) := by
  obtain ⟨j, hj, hlocate⟩ := hg.exists_locate h hv hfacet
  obtain ⟨n, hnode, hat⟩ := hg.exists_slotAt hv hj
  have hmem : ∀ d ∈ done ++ [c], d ∈ facet.slot.owned := by
    intro d hd
    rw [howned]
    simp only [List.mem_append, List.mem_cons] at hd ⊢
    tauto
  have hadopt : g.checkAdoption (number order v) (number order c) facet.property = .ok () := by
    refine hg.sound.wellFormed.checkAdoption_eq_ok_iff.mpr
      (hg.adoptable h hv hfacet (hmem c (by simp)) ?_)
    -- No child is listed twice, so it is not among those that are in place.
    rw [hdone]
    intro hin
    obtain ⟨d, hd, hnumber⟩ := List.mem_map.mp hin
    have hdorder := (h.child_of_mem_owned hv hfacet (hmem d (by simp [hd]))).2
    obtain rfl : d = c := Source.number_injective hdorder hnumber
    have hnodup := h.nodup_owned hv hfacet
    rw [howned] at hnodup
    exact not_mem_of_nodup_append hnodup hd
  have heffect : (Command.append (number order v) facet.property.name (number order c)).effect g =
      .ok (.refilled (number order v) ⟨j, facet.property⟩
        (.children (some ((done ++ [c]).map (number order))))) := by
    rw [hkind] at hlocate
    simp only [Command.effect, hlocate, hnode, hadopt, hat, hdone, bind, Except.bind, pure,
      Except.pure, Slot.listed, List.map_append, List.map_cons, List.map_nil]
  refine hg.step h hv hfacet hj heffect ?_
  intro d hd
  obtain ⟨c, hc, rfl⟩ := List.mem_map.mp hd
  exact ⟨c, hmem c hc, rfl⟩

/-- All children take their places. -/
theorem Partway.appendAll (hg : Partway f order g fill) (h : Source schema f root order)
    (hv : v ∈ order) (hfacet : facet ∈ f.visible v) (hkind : facet.property.kind = .multiple)
    (rest : List NodeId) (done : List NodeId) (howned : facet.slot.owned = done ++ rest)
    (hdone : fill v facet.property.name = .children (some (done.map (number order)))) :
    ∃ g', (rest.map (number order)).forM (Edit.append (number order v) facet.property.name) g =
        .ok () g' ∧
      Partway f order g' (put fill v facet.property.name
        (.children (some (facet.slot.owned.map (number order))))) := by
  -- The slot holds the images of what is done; each step moves one child over.
  induction rest generalizing g fill done with
  | nil =>
      rw [List.append_nil] at howned
      refine ⟨g, rfl, ?_⟩
      rw [howned, ← hdone, put_eq_self]
      exact hg
  | cons c rest ih =>
      obtain ⟨g₁, hedit, hg₁⟩ := hg.append h hv hfacet hkind howned hdone
      obtain ⟨g', hrest, hg'⟩ := ih hg₁ (done ++ [c]) (by simpa using howned) (put_self _ _ _ _)
      rw [put_put] at hg'
      refine ⟨g', ?_, hg'⟩
      rw [List.map_cons, Edit.forM_cons_apply, bind_of_ok _ hedit]
      exact hrest

theorem image_of_kind_multiple {facet : Facet} (h : facet.slot.kind = .multiple) :
    image order facet = .children (some (facet.slot.owned.map (number order))) := by
  obtain ⟨property, slot⟩ := facet
  cases slot with
  | children cs => cases cs <;> rfl
  | ignored => rfl
  | value x => cases h
  | child c => cases h
  | reference ref => cases h

/-- **A containment is read back.** -/
theorem Partway.addChildren (hg : Partway f order g fill) (h : Source schema f root order)
    (hv : v ∈ order) (hfacet : facet ∈ f.visible v) {entry : ContainmentEntry}
    (hentry : asContainment? schema (f.treeName? space root) (f.typeOf v) facet = some entry)
    (hempty : fill v facet.property.name = Slot.empty facet.property.kind) (r : Record) :
    ∃ g', Document.addChildren schema (order.map (entryFor space f order))
        (entryFor space f order v) r entry g = .ok () g' ∧
      Partway f order g' (put fill v facet.property.name (image order facet)) := by
  have haccepts := h.accepts hv hfacet
  have hkind := haccepts.kind_eq
  have hcontains : facet.slot.kind.isContainment = true := by
    by_contra hnot
    simp [asContainment?, hnot] at hentry
  rw [asContainment?, if_pos hcontains] at hentry
  obtain rfl := Option.some.inj hentry
  rw [hkind] at hcontains
  have hkinds : facet.property.kind ∈ [Kind.single, Kind.multiple] := by
    cases hk : facet.property.kind <;> simp [hk, Kind.isContainment] at hcontains ⊢
  have hread : childNodes (order.map (entryFor space f order)) r _ = _ :=
    h.childNodes_eq hv hfacet r
  rw [Document.addChildren]
  show ∃ g', withFeature schema (f.typeOf v) r
    (Schema.pointer schema (f.typeOf v) facet.property.name) _ _ _ g = _ ∧ _
  rw [h.withFeature_eq hv hfacet hg.metamodel_eq r .containment hkinds,
    Edit.ask_bind_of_ok _ hread]
  -- A single child is set at once; a list is built up child by child.
  rcases List.mem_pair.mp hkinds with hsingle | hmultiple
  · have hslot := Slot.eq_child_of_kind (hkind.trans hsingle)
    have howned := Slot.owned_of_kind_single (hkind.trans hsingle)
    have hone : ¬ 1 < (facet.slot.owned.map (number order)).length := by
      rw [howned]
      cases facet.slot.single? <;> simp
    have hhead : (facet.slot.owned.map (number order)).head? =
        facet.slot.single?.map (number order) := by
      rw [howned]
      cases facet.slot.single? <;> rfl
    rw [if_pos hsingle, if_neg hone, hhead]
    exact hg.setChild h hv hfacet hslot hsingle hempty
  · have hstart : fill v facet.property.name = .children (some (([] : List NodeId).map
        (number order))) := by
      rw [hempty, hmultiple]
      rfl
    rw [if_neg (by simp [hmultiple]), image_of_kind_multiple (hkind.trans hmultiple)]
    exact hg.appendAll h hv hfacet hmultiple facet.slot.owned [] rfl hstart

/-- A reference that is written and read is resolved if its target belongs to the tree. -/
theorem Source.reference_eq (h : Source schema f root order) (t : NamedRef) :
    Target.reference (order.map (entryFor space f order))
        ⟨some t.name, t.target.bind (f.treeName? space root)⟩ = imageRef order t := by
  obtain ⟨name, target⟩ := t
  cases target with
  | none => rfl
  | some c =>
      by_cases hc : c ∈ order
      · simp [Target.reference, imageRef, treeName?_of_mem (h.mem_preorder hc),
          h.nodeOf?_eq (List.Subset.refl order) hc, hc, Option.filter]
      · have hout : c ∉ f.preorder root := fun hin => hc (h.perm.mem_iff.mp hin)
        simp [Target.reference, imageRef, Forest.treeName?, hout, hc, Option.filter]

/-- References in the making lead to nodes. -/
theorem Partway.exists_target (hg : Partway f order g fill) {ref : Option NamedRef} {d : NodeId}
    (hd : (ref.map (imageRef order)).bind NamedRef.target = some d) : ∃ n, g.node d = .ok n := by
  cases ref with
  | none => cases hd
  | some t =>
      obtain ⟨c, hc, rfl⟩ := Option.map_eq_some_iff.mp hd
      obtain ⟨-, hmem⟩ := Option.filter_eq_some_iff.mp hc
      obtain ⟨parent, hnode⟩ := hg.node c (of_decide_eq_true hmem)
      exact ⟨_, by rw [Forest.node, hnode]⟩

/-- **A reference is read back.** -/
theorem Partway.addReference (hg : Partway f order g fill) (h : Source schema f root order)
    (hv : v ∈ order) (hfacet : facet ∈ f.visible v) {entry : ReferenceEntry}
    (hentry : asReference? schema (f.treeName? space root) (f.typeOf v) facet = some entry)
    (r : Record) :
    ∃ g', Document.addReference schema (order.map (entryFor space f order))
        (entryFor space f order v) r entry g = .ok () g' ∧
      Partway f order g' (put fill v facet.property.name (image order facet)) := by
  obtain ⟨p, slot⟩ := facet
  have haccepts := h.accepts hv hfacet
  obtain ⟨j, hj, hlocate⟩ := hg.exists_locate h hv hfacet
  cases slot with
  | reference ref =>
      obtain rfl := Option.some.inj hentry
      have hkind : p.kind = .reference := haccepts.kind_eq.symm
      have heffect : (Command.setReference (number order v) p.name
          (ref.map (imageRef order))).effect g =
          .ok (.refilled (number order v) ⟨j, p⟩ (.reference (ref.map (imageRef order)))) := by
        simp only [hkind] at hlocate
        simp only [Command.effect, hlocate, bind, Except.bind, pure, Except.pure]
        cases hd : (ref.map (imageRef order)).bind NamedRef.target with
        | none => rfl
        | some d =>
            obtain ⟨n, hn⟩ := hg.exists_target hd
            simp [Option.forM, hn]
      obtain ⟨g', hedit, hg'⟩ := hg.step h hv hfacet hj heffect (by simp [Slot.owned])
      refine ⟨g', ?_, hg'⟩
      rw [Document.addReference]
      show withFeature schema (f.typeOf v) r (Schema.pointer schema (f.typeOf v) p.name)
        _ _ _ g = _
      rw [h.withFeature_eq hv hfacet hg.metamodel_eq r .reference (by simp [hkind])]
      cases ref with
      | none => exact hedit
      | some t =>
          rw [← hedit, Command.edit, Option.map_some, ← h.reference_eq t]
          rfl
  | value x => cases hentry
  | child c => cases hentry
  | children cs => cases hentry
  | ignored => cases hentry

/-! ### Programs and what they fill -/

/-- The facets in question have got their images, and nothing else has changed. -/
structure Filled (order : List NodeId) (spots : List (NodeId × Facet))
    (fill fill' : NodeId → String → Slot) : Prop where
  image_eq : ∀ v facet, (v, facet) ∈ spots → fill' v facet.property.name = image order facet
  frame : ∀ v x, (∀ facet, (v, facet) ∈ spots → facet.property.name ≠ x) → fill' v x = fill v x

/-- The program succeeds, and it fills the given facets if they are empty. -/
def Fills (f : Forest) (order : List NodeId) (program : Edit Unit)
    (spots : List (NodeId × Facet)) : Prop :=
  ∀ g fill, Partway f order g fill →
    (∀ v facet, (v, facet) ∈ spots →
      fill v facet.property.name = Slot.empty facet.property.kind) →
    ∃ g' fill', program g = .ok () g' ∧ Partway f order g' fill' ∧ Filled order spots fill fill'

/-- No slot occurs on both sides. -/
def Separate (spots spots' : List (NodeId × Facet)) : Prop :=
  ∀ v a b, (v, a) ∈ spots → (v, b) ∈ spots' → a.property.name ≠ b.property.name

theorem Filled.put (fill : NodeId → String → Slot) (v : NodeId) (facet : Facet) :
    Filled order [(v, facet)] fill (put fill v facet.property.name (image order facet)) where
  image_eq := by
    intro u other hmem
    obtain ⟨rfl, rfl⟩ := Prod.mk.inj (List.mem_singleton.mp hmem)
    exact put_self fill u _ _
  frame := by
    intro u x hne
    refine put_of_ne fill _ ?_
    rintro ⟨rfl, rfl⟩
    exact hne facet List.mem_cons_self rfl

theorem Filled.trans {spots spots' : List (NodeId × Facet)}
    {fill fill₁ fill₂ : NodeId → String → Slot} (h₁ : Filled order spots fill fill₁)
    (h₂ : Filled order spots' fill₁ fill₂) (hseparate : Separate spots spots') :
    Filled order (spots ++ spots') fill fill₂ where
  image_eq := by
    intro v facet hmem
    rcases List.mem_append.mp hmem with hmem | hmem
    · rw [h₂.frame v _ fun other hother => (hseparate v facet other hmem hother).symm]
      exact h₁.image_eq v facet hmem
    · exact h₂.image_eq v facet hmem
  frame := by
    intro v x hne
    rw [h₂.frame v x fun facet hmem => hne facet (List.mem_append_right _ hmem),
      h₁.frame v x fun facet hmem => hne facet (List.mem_append_left _ hmem)]

namespace Fills

theorem nothing : Fills f order (pure ()) [] :=
  fun g fill hg _ => ⟨g, fill, rfl, hg, by simp, by simp⟩

/-- Programs that fill different slots can be run one after the other. -/
theorem andThen {first second : Edit Unit} {spots spots' : List (NodeId × Facet)}
    (h₁ : Fills f order first spots) (h₂ : Fills f order second spots')
    (hseparate : Separate spots spots') :
    Fills f order (first >>= fun _ => second) (spots ++ spots') := by
  intro g fill hg hempty
  obtain ⟨g₁, fill₁, hrun₁, hg₁, hfilled₁⟩ := h₁ g fill hg fun v facet hmem =>
    hempty v facet (List.mem_append_left _ hmem)
  obtain ⟨g₂, fill₂, hrun₂, hg₂, hfilled₂⟩ := h₂ g₁ fill₁ hg₁ fun v facet hmem => by
    rw [hfilled₁.frame v _ fun other hother => hseparate v other facet hother hmem]
    exact hempty v facet (List.mem_append_right _ hmem)
  refine ⟨g₂, fill₂, ?_, hg₂, hfilled₁.trans hfilled₂ hseparate⟩
  rw [bind_of_ok _ hrun₁]
  exact hrun₂

/-- Hence so can any number of them. -/
theorem forM {α : Type} {act : α → Edit Unit} {spots : α → List (NodeId × Facet)} {l : List α}
    (h : ∀ a ∈ l, Fills f order (act a) (spots a))
    (hseparate : l.Pairwise fun a b => Separate (spots a) (spots b)) :
    Fills f order (l.forM act) (l.flatMap spots) := by
  induction l with
  | nil => exact nothing
  | cons a l ih =>
      obtain ⟨hhead, htail⟩ := List.pairwise_cons.mp hseparate
      refine andThen (h a List.mem_cons_self)
        (ih (fun b hb => h b (List.mem_cons_of_mem _ hb)) htail) ?_
      intro v x y hx hy
      obtain ⟨b, hb, hy⟩ := List.mem_flatMap.mp hy
      exact hhead b hb v x y hx hy

theorem of_mem_iff {program : Edit Unit} {spots spots' : List (NodeId × Facet)}
    (h : Fills f order program spots) (hmem : ∀ spot, spot ∈ spots ↔ spot ∈ spots') :
    Fills f order program spots' := by
  intro g fill hg hempty
  obtain ⟨g', fill', hrun, hg', hfilled⟩ := h g fill hg fun v facet hspot =>
    hempty v facet ((hmem _).mp hspot)
  exact ⟨g', fill', hrun, hg',
    fun v facet hspot => hfilled.image_eq v facet ((hmem _).mpr hspot),
    fun v x hne => hfilled.frame v x fun facet hspot => hne facet ((hmem _).mp hspot)⟩

end Fills

/-! ### Records -/

theorem forM_filterMap {α β : Type} (part? : α → Option β) (act : β → Edit Unit) (l : List α) :
    (l.filterMap part?).forM act = l.forM fun a => (part? a).forM act := by
  induction l with
  | nil => rfl
  | cons a l ih =>
      cases hpart : part? a with
      | none =>
          rw [List.filterMap_cons_none hpart, ih]
          show _ = ((part? a).forM act >>= fun _ => l.forM _)
          rw [hpart]
          rfl
      | some b =>
          rw [List.filterMap_cons_some hpart]
          show (act b >>= fun _ => (l.filterMap part?).forM act) =
            ((part? a).forM act >>= fun _ => l.forM _)
          rw [hpart, ih]
          rfl

/-- The facets of a node that have an entry in one part of the record. -/
def spotsOf {α : Type} (part? : Facet → Option α) (v : NodeId) (facets : List Facet) :
    List (NodeId × Facet) :=
  (facets.filter fun facet => (part? facet).isSome).map (Prod.mk v)

theorem mem_spotsOf {α : Type} {part? : Facet → Option α} {u v : NodeId} {facets : List Facet} :
    (u, facet) ∈ spotsOf part? v facets ↔
      u = v ∧ facet ∈ facets ∧ (part? facet).isSome = true := by
  simp only [spotsOf, List.mem_map, List.mem_filter, Prod.mk.injEq]
  constructor
  · rintro ⟨a, ha, rfl, rfl⟩
    exact ⟨rfl, ha⟩
  · rintro ⟨rfl, hmem⟩
    exact ⟨facet, hmem, rfl, rfl⟩

/-- One part of a record. -/
theorem Source.fills_part (h : Source schema f root order) (hv : v ∈ order) {α : Type}
    {part? : Facet → Option α} {act : α → Edit Unit}
    (hact : ∀ facet ∈ f.visible v, ∀ entry, part? facet = some entry →
      Fills f order (act entry) [(v, facet)]) :
    Fills f order (((f.visible v).filterMap part?).forM act) (spotsOf part? v (f.visible v)) := by
  have hone : ∀ facet ∈ f.visible v,
      Fills f order ((part? facet).forM act) (spotsOf part? v [facet]) := by
    intro facet hfacet
    cases hpart : part? facet with
    | none =>
        rw [spotsOf, List.filter_cons_of_neg (by simp [hpart])]
        exact Fills.nothing
    | some entry =>
        rw [spotsOf, List.filter_cons_of_pos (by simp [hpart])]
        exact hact facet hfacet entry hpart
  have hnames : (f.visible v).Pairwise fun a b =>
      Separate (spotsOf part? v [a]) (spotsOf part? v [b]) := by
    refine (List.pairwise_map.mp (h.nodup_visible hv)).imp ?_
    intro a b hne u x y hx hy
    obtain rfl := List.mem_singleton.mp (mem_spotsOf.mp hx).2.1
    obtain rfl := List.mem_singleton.mp (mem_spotsOf.mp hy).2.1
    exact hne
  -- Facets without an entry in this part have nothing to fill.
  rw [forM_filterMap]
  refine (Fills.forM hone hnames).of_mem_iff ?_
  rintro ⟨u, facet⟩
  simp only [List.mem_flatMap, mem_spotsOf, List.mem_singleton]
  constructor
  · rintro ⟨a, ha, rfl, rfl, hpart⟩
    exact ⟨rfl, ha, hpart⟩
  · rintro ⟨rfl, hfacet, hpart⟩
    exact ⟨facet, hfacet, rfl, rfl, hpart⟩

/-- Entries in different parts of the record are for different slots. -/
theorem Source.separate_parts (h : Source schema f root order) (hv : v ∈ order) {α β : Type}
    {part? : Facet → Option α} {part?' : Facet → Option β}
    (hparts : ∀ facet, ((part? facet).isSome && (part?' facet).isSome) = false) :
    Separate (spotsOf part? v (f.visible v)) (spotsOf part?' v (f.visible v)) := by
  intro u a b ha hb hname
  obtain ⟨-, ha, hpart⟩ := mem_spotsOf.mp ha
  obtain ⟨-, hb, hpart'⟩ := mem_spotsOf.mp hb
  obtain rfl : a = b := List.inj_on_of_nodup_map (h.nodup_visible hv) ha hb hname
  have hboth := hparts a
  rw [hpart, hpart'] at hboth
  cases hboth

theorem isSome_asProperty? (type : String) (facet : Facet) :
    (asProperty? schema type facet).isSome = decide (facet.slot.kind = .value) := by
  obtain ⟨p, slot⟩ := facet
  cases slot <;> rfl

theorem isSome_asContainment? (name? : NodeId → Option String) (type : String) (facet : Facet) :
    (asContainment? schema name? type facet).isSome = facet.slot.kind.isContainment := by
  obtain ⟨p, slot⟩ := facet
  cases slot <;> rfl

theorem isSome_asReference? (name? : NodeId → Option String) (type : String) (facet : Facet) :
    (asReference? schema name? type facet).isSome = decide (facet.slot.kind = .reference) := by
  obtain ⟨p, slot⟩ := facet
  cases slot <;> rfl

theorem Source.fills_properties (h : Source schema f root order) (space : String) (hv : v ∈ order) :
    Fills f order
      (((f.visible v).filterMap (asProperty? schema (f.typeOf v))).forM
        (addProperty schema (entryFor space f order v)
          (recordFor schema (f.treeName? space root) f root v)))
      (spotsOf (asProperty? schema (f.typeOf v)) v (f.visible v)) := by
  refine h.fills_part hv fun facet hfacet entry hentry g fill hg _ => ?_
  obtain ⟨g', hrun, hg'⟩ := hg.addProperty h hv hfacet hentry _
  exact ⟨g', _, hrun, hg', Filled.put fill v facet⟩

theorem Source.fills_children (h : Source schema f root order) (space : String) (hv : v ∈ order) :
    Fills f order
      (((f.visible v).filterMap (asContainment? schema (f.treeName? space root) (f.typeOf v))).forM
        (addChildren schema (order.map (entryFor space f order)) (entryFor space f order v)
          (recordFor schema (f.treeName? space root) f root v)))
      (spotsOf (asContainment? schema (f.treeName? space root) (f.typeOf v)) v (f.visible v)) := by
  refine h.fills_part hv fun facet hfacet entry hentry g fill hg hempty => ?_
  obtain ⟨g', hrun, hg'⟩ := hg.addChildren h hv hfacet hentry
    (hempty v facet List.mem_cons_self) _
  exact ⟨g', _, hrun, hg', Filled.put fill v facet⟩

theorem Source.fills_references (h : Source schema f root order) (space : String) (hv : v ∈ order) :
    Fills f order
      (((f.visible v).filterMap (asReference? schema (f.treeName? space root) (f.typeOf v))).forM
        (addReference schema (order.map (entryFor space f order)) (entryFor space f order v)
          (recordFor schema (f.treeName? space root) f root v)))
      (spotsOf (asReference? schema (f.treeName? space root) (f.typeOf v)) v (f.visible v)) := by
  refine h.fills_part hv fun facet hfacet entry hentry g fill hg _ => ?_
  obtain ⟨g', hrun, hg'⟩ := hg.addReference h hv hfacet hentry _
  exact ⟨g', _, hrun, hg', Filled.put fill v facet⟩

/-- **A record fills the visible facets of its node.** -/
theorem Source.fills_addFeatures (h : Source schema f root order) (hv : v ∈ order) :
    Fills f order
      (addFeatures schema (order.map (entryFor space f order))
        (recordFor schema (f.treeName? space root) f root v, entryFor space f order v))
      ((f.visible v).map (Prod.mk v)) := by
  have hlater := (h.fills_children space hv).andThen (h.fills_references space hv) <|
    h.separate_parts hv fun facet => by
      rw [isSome_asContainment?, isSome_asReference?]
      cases facet.slot.kind <;> rfl
  refine ((h.fills_properties space hv).andThen hlater ?_).of_mem_iff ?_
  · intro u a b ha hb
    rcases List.mem_append.mp hb with hb | hb
    · refine h.separate_parts hv (fun facet => ?_) u a b ha hb
      rw [isSome_asProperty?, isSome_asContainment?]
      cases facet.slot.kind <;> rfl
    · refine h.separate_parts hv (fun facet => ?_) u a b ha hb
      rw [isSome_asProperty?, isSome_asReference?]
      cases facet.slot.kind <;> rfl
  · -- Each facet has an entry in one of the parts, by its kind.
    rintro ⟨u, facet⟩
    simp only [List.mem_append, mem_spotsOf, List.mem_map, Prod.mk.injEq, isSome_asProperty?,
      isSome_asContainment?, isSome_asReference?]
    constructor
    · rintro (⟨rfl, hfacet, -⟩ | ⟨rfl, hfacet, -⟩ | ⟨rfl, hfacet, -⟩) <;>
        exact ⟨facet, hfacet, rfl, rfl⟩
    · rintro ⟨a, hfacet, rfl, rfl⟩
      cases a.slot.kind with
      | value => exact .inl ⟨rfl, hfacet, rfl⟩
      | single => exact .inr (.inl ⟨rfl, hfacet, rfl⟩)
      | multiple => exact .inr (.inl ⟨rfl, hfacet, rfl⟩)
      | reference => exact .inr (.inr ⟨rfl, hfacet, rfl⟩)

/-- The identifier of each record leads to the entry of its node. -/
theorem Source.entered_records (h : Source schema f root order) (space : String) :
    entered (order.map (entryFor space f order))
        (order.map (recordFor schema (f.treeName? space root) f root)) =
      order.map fun v => (recordFor schema (f.treeName? space root) f root v,
        entryFor space f order v) := by
  rw [entered_eq_zip, List.zip_map']
  intro pair hpair
  rw [List.zip_map'] at hpair
  obtain ⟨v, hv, rfl⟩ := List.mem_map.mp hpair
  have hid : (recordFor schema (f.treeName? space root) f root v).id = f.structuralId space v := by
    rw [recordFor, treeName?_of_mem (h.mem_preorder hv), Option.getD_some]
  rw [hid, h.nodeOf?_eq (List.Subset.refl order) hv, if_pos hv]
  rfl

/-- **The second pass fills the visible facets of all nodes.** -/
theorem Source.fills_pass (h : Source schema f root order) (space : String) :
    Fills f order
      ((order.map fun v => (recordFor schema (f.treeName? space root) f root v,
        entryFor space f order v)).forM (addFeatures schema (order.map (entryFor space f order))))
      (order.flatMap fun v => (f.visible v).map (Prod.mk v)) := by
  rw [List.forM_eq_forM, List.forM_map, ← List.forM_eq_forM]
  refine Fills.forM (fun v hv => h.fills_addFeatures hv) (h.nodup.imp ?_)
  intro u v hne w a b ha hb
  obtain ⟨_, _, ha⟩ := List.mem_map.mp ha
  obtain ⟨_, _, hb⟩ := List.mem_map.mp hb
  exact absurd ((Prod.mk.inj ha).1.trans (Prod.mk.inj hb).1.symm) hne

/-- The forest after the second pass. -/
theorem Source.exists_filled (h : Source schema f root order) (space : String) :
    ∃ g fill, (order.map fun v => (recordFor schema (f.treeName? space root) f root v,
        entryFor space f order v)).forM (addFeatures schema (order.map (entryFor space f order)))
          (blank f order order) = .ok () g ∧
      Partway f order g fill ∧
      (∀ v ∈ order, ∀ facet ∈ f.visible v, fill v facet.property.name = image order facet) ∧
      ∀ v ∈ order, ∀ p ∈ f.table v, p.isPublic = false → fill v p.name = Slot.empty p.kind := by
  have hspot : ∀ v facet, (v, facet) ∈ (order.flatMap fun v => (f.visible v).map (Prod.mk v)) →
      v ∈ order ∧ facet ∈ f.visible v := by
    intro v facet hmem
    obtain ⟨u, hu, hmem⟩ := List.mem_flatMap.mp hmem
    obtain ⟨a, ha, heq⟩ := List.mem_map.mp hmem
    obtain ⟨rfl, rfl⟩ := Prod.mk.inj heq
    exact ⟨hu, ha⟩
  obtain ⟨g, fill, hrun, hg, hfilled⟩ := h.fills_pass space (blank f order order)
    (emptyFill f) h.partway_blank fun v facet hmem => by
      obtain ⟨hv, hfacet⟩ := hspot v facet hmem
      exact h.emptyFill_eq hv (h.mem_table hv hfacet)
  refine ⟨g, fill, hrun, hg, ?_, ?_⟩
  · intro v hv facet hfacet
    exact hfilled.image_eq v facet
      (List.mem_flatMap.mpr ⟨v, hv, List.mem_map.mpr ⟨facet, hfacet, rfl⟩⟩)
  · intro v hv p hp hhidden
    rw [← h.emptyFill_eq hv hp]
    refine hfilled.frame v p.name fun facet hmem hname => ?_
    -- A visible facet of the same name would be one of the same property.
    obtain ⟨-, hfacet⟩ := hspot v facet hmem
    obtain ⟨-, -, -, -, -, hpublic, -⟩ := h.site_of_mem_visible hv hfacet
    obtain rfl : facet.property = p :=
      List.inj_on_of_nodup_map (h.nodup_table hv) (h.mem_table hv hfacet) hp hname
    rw [hpublic] at hhidden
    cases hhidden

end Document

end TypedForest
