import TypedForest.Proofs.Forest.Address

/-!
# When a node can be attached

Two edits attach a node to an owner: one adds it at the end of a list of children, the
other makes it the single child of a containment and frees the child that was there.  Both
look upwards, from the owner to its root, to see that no node ends up below itself.  What
they have to rule out is a matter of looking down: the owner must not stand in the tree
of the node, whichever slots lead there.  In a sound forest the two views agree.

This module says exactly when the edits are granted, that a circle is the first thing
they notice, and what they change.

## Main Definitions

* `Forest.Within`: a node stands in the tree of another, through slots of any sort.
* `Forest.Offers`: a node has a property of a given name and kind.
* `Forest.Attachable`: a node may be attached to an owner.
* `Forest.Attached`: the forests before and after.
* `Forest.AttachesExactly`: what an edit that attaches a node does.

## Main Results

* `WellFormed.within_iff`: looking down and looking up agree.
* `Forest.attachment_exact`: both edits attach exactly what may be attached.
-/

namespace TypedForest

theorem Slot.mem_owned_of_single? {s : Slot} {c : NodeId} (h : s.single? = some c) :
    c ∈ s.owned := by
  cases s with
  | child d =>
      obtain rfl : d = some c := h
      exact List.mem_singleton_self c
  | _ => cases h

theorem Slot.single?_of_kind_multiple {s : Slot} (h : s.kind = .multiple) : s.single? = none := by
  cases s with
  | child d => cases h
  | _ => rfl

namespace Forest

open Relation

variable {f g : Forest} {owner c x : NodeId} {name : String} {kind : Kind} {p : Property}
  {site : Site} {n : Node} {s content : Slot}

/-- `x` stands in the tree of `c`: slots lead down from `c` to `x`, public or not. -/
def Within (f : Forest) (c x : NodeId) : Prop := ReflTransGen f.Owns c x

/-- The type of the node has the property, under this name and of this kind. -/
def Offers (f : Forest) (id : NodeId) (name : String) (kind : Kind) (p : Property) : Prop :=
  ∃ n t, f.get? id = some n ∧ f.metamodel.type n.type = .ok t ∧ p ∈ t.effective ∧
    p.name = name ∧ p.kind = kind

/-- The node exists and is free, it is of the type that the property asks for, and the
owner does not stand in its tree. -/
structure Attachable (f : Forest) (owner : NodeId) (p : Property) (c : NodeId) : Prop where
  free : ∃ n, f.get? c = some n ∧ n.parent = none ∧
    ∀ expected, p.childType = some expected → f.metamodel.assignable n.type expected = true
  not_within : ¬ f.Within c owner

/-- The slot of `owner` has the new content, `c` has `owner` as its parent, and `gone`, if
there is such a node, has none.  All else is as before. -/
structure Attached (f g : Forest) (owner : NodeId) (site : Site) (content : Slot) (c : NodeId)
    (gone : Option NodeId) : Prop where
  metamodel_eq : g.metamodel = f.metamodel
  get?_eq : ∀ x, g.get? x = (f.get? x).map fun n =>
    { n with
      parent := if x = c then some owner else if gone = some x then none else n.parent
      slots := if x = owner then n.slots.set site.index content else n.slots }

/-- The edit attaches `c` to a property of `owner` if the property `holds` it already or if
it may be attached, and in no other case.  What the slot holds afterwards is `store` of
what it held before. -/
structure AttachesExactly (f : Forest) (owner : NodeId) (name : String) (kind : Kind)
    (c : NodeId) (holds : Prop) (store : Slot → Slot) (edit : Edit Unit) : Prop where
  granted_iff : (∃ g, edit f = .ok () g) ↔
    ∃ p, f.Offers owner name kind p ∧ (holds ∨ f.Attachable owner p c)
  cyclic : ∀ p, f.Offers owner name kind p → ¬ holds → f.Within c owner →
    edit f = .error (.cyclic (f.label c)) f
  change : ∀ g, edit f = .ok () g → ∃ site s, f.locate owner name kind = .ok site ∧
    f.slot owner name kind = .ok s ∧ f.Attached g owner site (store s) c s.single?

/-! ### Looking down and looking up -/

/-- **A node stands in the tree of another exactly if the other is met on the way up.** -/
theorem WellFormed.within_iff (hf : f.WellFormed) :
    f.Within c x ↔ ReflTransGen f.IsParent x c := by
  have howns : f.Owns = Function.swap f.IsParent := by
    funext a b
    exact propext hf.parent_iff.symm
  rw [Within, howns, reflTransGen_swap]

theorem WellFormed.attachable_iff (hf : f.WellFormed) :
    f.Attachable owner p c ↔ f.checkAdoption owner c p = .ok () := by
  rw [hf.checkAdoption_eq_ok_iff]
  constructor
  · rintro ⟨hfree, hnot⟩
    exact ⟨hfree, hf.within_iff.not.mp hnot⟩
  · rintro ⟨hfree, hnot⟩
    exact ⟨hfree, hf.within_iff.not.mpr hnot⟩

/-- The check looks for a circle before it looks at anything else. -/
theorem WellFormed.checkAdoption_of_within (hf : f.WellFormed) (h : f.Within c owner)
    (p : Property) : f.checkAdoption owner c p = .error (.cyclic (f.label c)) := by
  rw [checkAdoption, if_pos (hf.reflTransGen_iff.mp (hf.within_iff.mp h))]

/-! ### Properties and their slots -/

/-- A property is found under its name and kind. -/
theorem Offers.exists_locate (h : f.Offers owner name kind p) (hm : f.metamodel.Built) :
    ∃ site, f.locate owner name kind = .ok site ∧ site.property = p := by
  obtain ⟨n, t, hn, ht, hp, rfl, rfl⟩ := h
  obtain ⟨j, hj⟩ := List.mem_iff_getElem?.mp hp
  exact ⟨⟨j, p⟩, locate_of_get? hn ht (hm.nodup_names ht) hj, rfl⟩

theorem offers_of_locate (h : f.locate owner name kind = .ok site) :
    f.Offers owner name kind site.property := by
  obtain ⟨n, t, hn, ht, hsite, hkind, hname⟩ := locate_eq_ok h
  exact ⟨n, t, hn, ht, List.mem_of_getElem? hsite, hname, hkind⟩

theorem SlotAt.slot_eq_ok (h : f.SlotAt owner site n s)
    (hsite : f.locate owner name kind = .ok site) : f.slot owner name kind = .ok s := by
  simp only [slot, hsite, h.node_eq, h.slotAt_eq, bind, Except.bind, pure, Except.pure]

/-- A single containment holds `c` exactly if its slot does. -/
theorem slot_eq_child_iff (hat : f.SlotAt owner site n s)
    (hsite : f.locate owner name .single = .ok site) :
    f.slot owner name .single = .ok (.child (some c)) ↔ s.single? = some c := by
  have hkind : s.kind = .single := by
    obtain ⟨-, -, -, -, -, hkind, -⟩ := locate_eq_ok hsite
    rw [hat.kind_eq, hkind]
  rw [hat.slot_eq_ok hsite, Except.ok.injEq]
  constructor
  · rintro rfl
    rfl
  · intro hsingle
    rw [Slot.eq_child_of_kind hkind, hsingle]

/-! ### What changes -/

/-- Content that owns `c` besides what the slot owned and kept is content with `c` attached. -/
theorem attached_refill (hf : f.WellFormed) (hat : f.SlotAt owner site n s)
    (howned : ∀ x, x ∈ content.owned ↔ x = c ∨ x ∈ s.owned ∧ s.single? ≠ some x) :
    f.Attached (f.refill owner site.index content) owner site content c s.single? where
  metamodel_eq := rfl
  get?_eq := by
    intro x
    rw [get?_refill, hat.ownedAt_eq]
    refine Option.map_congr fun k hk => ?_
    have hold : x ∈ s.owned → k.parent = some owner := by
      intro hx
      rw [← parent?_of_get? hk]
      exact hf.parent_iff.mpr (owns_of_mem_ownedAt (hat.ownedAt_eq ▸ hx))
    have hparent : (if x ∈ content.owned then some owner
        else if x ∈ s.owned then none else k.parent) =
        if x = c then some owner else if s.single? = some x then none else k.parent := by
      by_cases hc : x = c
      · rw [if_pos ((howned x).mpr (.inl hc)), if_pos hc]
      · by_cases hgone : s.single? = some x
        · have hx : x ∈ s.owned := Slot.mem_owned_of_single? hgone
          rw [if_neg fun hnew => ?_, if_pos hx, if_neg hc, if_pos hgone]
          exact ((howned x).mp hnew).elim hc fun h => h.2 hgone
        · rw [if_neg hc, if_neg hgone]
          by_cases hx : x ∈ s.owned
          · rw [if_pos ((howned x).mpr (.inr ⟨hx, hgone⟩)), hold hx]
          · rw [if_neg fun hnew => ?_, if_neg hx]
            exact ((howned x).mp hnew).elim hc fun h => hx h.1
    rw [refillNode, hparent]

/-! ### The two edits -/

variable {holds : Prop} {store : Slot → Slot} {edit : Edit Unit}

/-- What is granted and refused follows from the outcome of the check. -/
theorem AttachesExactly.of_check (hf : f.Sound) (hm : f.metamodel.Built)
    (hgranted : ∀ g, edit f = .ok () g ↔ ∃ site n s, f.locate owner name kind = .ok site ∧
      f.SlotAt owner site n s ∧ (holds ∨ f.checkAdoption owner c site.property = .ok ()) ∧
      g = f.refill owner site.index (store s))
    (hrefused : ∀ site e, f.locate owner name kind = .ok site → ¬ holds →
      f.checkAdoption owner c site.property = .error e → edit f = .error e f)
    (howned : ∀ s, s.kind = kind → ∀ x,
      x ∈ (store s).owned ↔ x = c ∨ x ∈ s.owned ∧ s.single? ≠ some x) :
    f.AttachesExactly owner name kind c holds store edit where
  granted_iff := by
    constructor
    · rintro ⟨g, hg⟩
      obtain ⟨site, n, s, hsite, -, hcheck, -⟩ := (hgranted g).mp hg
      exact ⟨site.property, offers_of_locate hsite,
        hcheck.imp_right hf.wellFormed.attachable_iff.mpr⟩
    · rintro ⟨p, hoffers, hattach⟩
      obtain ⟨site, hsite, rfl⟩ := hoffers.exists_locate hm
      obtain ⟨n, s, hat, -⟩ := hf.exists_slotAt hsite
      exact ⟨_, (hgranted _).mpr ⟨site, n, s, hsite, hat,
        hattach.imp_right hf.wellFormed.attachable_iff.mp, rfl⟩⟩
  cyclic := by
    intro p hoffers hnot hwithin
    obtain ⟨site, hsite, rfl⟩ := hoffers.exists_locate hm
    exact hrefused site _ hsite hnot (hf.wellFormed.checkAdoption_of_within hwithin _)
  change := by
    intro g hg
    obtain ⟨site, n, s, hsite, hat, -, rfl⟩ := (hgranted g).mp hg
    obtain ⟨n', s', hat', hkind⟩ := hf.exists_slotAt hsite
    obtain rfl : s' = s := Except.ok.inj ((hat'.slot_eq_ok hsite).symm.trans (hat.slot_eq_ok hsite))
    exact ⟨site, s', hsite, hat.slot_eq_ok hsite,
      attached_refill hf.wellFormed hat (howned s' hkind)⟩

theorem Sound.append_eq_ok_iff (hf : f.Sound) :
    Edit.append owner name c f = .ok () g ↔ ∃ site n s, f.locate owner name .multiple = .ok site ∧
      f.SlotAt owner site n s ∧ f.checkAdoption owner c site.property = .ok () ∧
      g = f.refill owner site.index (.children (some (s.listed ++ [c]))) := by
  constructor
  · intro h
    obtain ⟨e, he, rfl⟩ := hf.edit_eq_ok (c := .append owner name c) h
    obtain ⟨site, hsite, he⟩ := bind_eq_ok.mp he
    obtain ⟨_, hcheck, he⟩ := bind_eq_ok.mp he
    obtain ⟨n', hn', he⟩ := bind_eq_ok.mp he
    obtain ⟨n, s, hat, -⟩ := hf.exists_slotAt hsite
    obtain rfl : n = n' := Except.ok.inj (hat.node_eq.symm.trans hn')
    obtain rfl := Except.ok.inj he
    exact ⟨site, n, s, hsite, hat, hcheck, by rw [hat.slotAt_eq]; rfl⟩
  · rintro ⟨site, n, s, hsite, hat, hcheck, rfl⟩
    rw [Edit.append_eq hf]
    simp [Command.effect, hsite, hcheck, hat.node_eq, hat.slotAt_eq, bind, Except.bind, pure,
      Except.pure, Effect.carryOut, Effect.apply]

theorem Sound.append_of_refused (hf : f.Sound) {e : Error}
    (hsite : f.locate owner name .multiple = .ok site)
    (hcheck : f.checkAdoption owner c site.property = .error e) :
    Edit.append owner name c f = .error e f := by
  rw [Edit.append_eq hf]
  simp [Command.effect, hsite, hcheck, bind, Except.bind, Effect.carryOut]

theorem Sound.setChild_eq_ok_iff (hf : f.Sound) :
    Edit.setChild owner name (some c) f = .ok () g ↔
      ∃ site n s, f.locate owner name .single = .ok site ∧ f.SlotAt owner site n s ∧
        (s.single? = some c ∨ f.checkAdoption owner c site.property = .ok ()) ∧
        g = f.refill owner site.index (.child (some c)) := by
  constructor
  · intro h
    obtain ⟨e, he, rfl⟩ := hf.edit_eq_ok (c := .setChild owner name (some c)) h
    obtain ⟨site, hsite, he⟩ := bind_eq_ok.mp he
    obtain ⟨n', hn', he⟩ := bind_eq_ok.mp he
    obtain ⟨n, s, hat, -⟩ := hf.exists_slotAt hsite
    obtain rfl : n = n' := Except.ok.inj (hat.node_eq.symm.trans hn')
    rw [hat.slotAt_eq] at he
    split at he
    case isTrue hsame =>
      obtain rfl := Except.ok.inj he
      exact ⟨site, n, s, hsite, hat, .inl hsame, rfl⟩
    case isFalse =>
      obtain ⟨_, hcheck, he⟩ := bind_eq_ok.mp he
      obtain rfl := Except.ok.inj he
      exact ⟨site, n, s, hsite, hat, .inr hcheck, rfl⟩
  · rintro ⟨site, n, s, hsite, hat, hcheck, rfl⟩
    rw [Edit.setChild_eq hf]
    by_cases hsame : s.single? = some c
    · simp [Command.effect, hsite, hat.node_eq, hat.slotAt_eq, hsame, bind, Except.bind, pure,
        Except.pure, Effect.carryOut, Effect.apply]
    · simp [Command.effect, hsite, hat.node_eq, hat.slotAt_eq, hsame, hcheck.resolve_left hsame,
        Option.forM, bind, Except.bind, pure, Except.pure, Effect.carryOut, Effect.apply]

theorem Sound.setChild_of_refused (hf : f.Sound) {e : Error}
    (hsite : f.locate owner name .single = .ok site) (hat : f.SlotAt owner site n s)
    (hother : s.single? ≠ some c) (hcheck : f.checkAdoption owner c site.property = .error e) :
    Edit.setChild owner name (some c) f = .error e f := by
  rw [Edit.setChild_eq hf]
  simp [Command.effect, hsite, hat.node_eq, hat.slotAt_eq, hother, hcheck, Option.forM, bind,
    Except.bind, Effect.carryOut]

/-- **Exactly what may be attached is attached.**  In every forest that edits lead to, a node
is added to a list of children if and only if the owner has such a list, the node exists,
is free and of the type that is asked for, and the owner does not stand in its tree.  It
becomes a single child under the same conditions, or if it is the child already.  If the
property is there and the owner stands in the tree of the node, then it is this that
the refusal names, also if the node has a parent.  Where a node is attached, its parent,
the slot and the parent of a child that it replaces are all that changes. -/
theorem attachment_exact {m : Metamodel} (hm : m.Built) {f : Forest} (hf : Reachable m f)
    (owner : NodeId) (name : String) (c : NodeId) :
    f.AttachesExactly owner name .multiple c False
      (fun s => .children (some (s.listed ++ [c]))) (Edit.append owner name c) ∧
    f.AttachesExactly owner name .single c (f.slot owner name .single = .ok (.child (some c)))
      (fun _ => .child (some c)) (Edit.setChild owner name (some c)) := by
  have hsound := hf.sound
  have hbuilt : f.metamodel.Built := hf.metamodel_eq ▸ hm
  constructor
  · refine .of_check hsound hbuilt (fun g => ?_) (fun site e hsite _ hcheck => ?_) ?_
    · simp only [false_or, hsound.append_eq_ok_iff]
    · exact hsound.append_of_refused hsite hcheck
    · intro s hkind x
      rw [Slot.single?_of_kind_multiple hkind, Slot.owned_of_kind_multiple hkind]
      simp [Slot.owned, or_comm]
  · refine .of_check hsound hbuilt (fun g => ?_) (fun site e hsite hnot hcheck => ?_) ?_
    · rw [hsound.setChild_eq_ok_iff]
      refine exists_congr fun site => exists_congr fun n => exists_congr fun s => ?_
      refine and_congr_right fun hsite => and_congr_right fun hat => and_congr_left fun _ => ?_
      rw [slot_eq_child_iff hat hsite]
    · obtain ⟨n, s, hat, -⟩ := hsound.exists_slotAt hsite
      exact hsound.setChild_of_refused hsite hat
        ((slot_eq_child_iff hat hsite).not.mp hnot) hcheck
    · intro s hkind x
      rw [Slot.owned_of_kind_single hkind]
      simp [Slot.owned]

/-- Crates own parts and, hidden, an inner crate. -/
def crate : TypeDeclaration where
  name := "Crate"
  properties := [{ name := "parts", kind := .multiple, childType := some "Crate" },
    { name := "inner", kind := .single, visibility := .hidden }]

def crateModel : Metamodel := Metamodel.grow [.type crate] { name := "crates" }

theorem crateModel_built : crateModel.Built := (Metamodel.Built.empty "crates").grow _

/-- A crate with an inner crate that has a part, and a crate that is free. -/
def crateForest : Forest :=
  run [.create "Crate", .create "Crate", .create "Crate", .create "Crate",
    .setChild ⟨0⟩ "inner" (some ⟨1⟩), .append ⟨1⟩ "parts" ⟨2⟩] { metamodel := crateModel }

/-- The free crate takes the place of the inner one.  The part of the inner crate takes
neither the inner crate, which is owned, nor the outer one, which is free. -/
theorem attachment_exact_crates :
    (∃ g site, Edit.setChild ⟨0⟩ "inner" (some ⟨3⟩) crateForest = .ok () g ∧
      crateForest.Attached g ⟨0⟩ site (.child (some ⟨3⟩)) ⟨3⟩ (some ⟨1⟩)) ∧
    Edit.append ⟨2⟩ "parts" ⟨1⟩ crateForest =
      .error (.cyclic (crateForest.label ⟨1⟩)) crateForest ∧
    Edit.setChild ⟨2⟩ "inner" (some ⟨0⟩) crateForest =
      .error (.cyclic (crateForest.label ⟨0⟩)) crateForest := by
  have hreach : Reachable crateModel crateForest := ⟨_, rfl⟩
  have hwf := hreach.sound.wellFormed
  have hwithin : ∀ x ∈ [0, 1].map NodeId.mk, crateForest.Within x ⟨2⟩ := by
    have hup : ∀ x ∈ [0, 1].map NodeId.mk, x = ⟨2⟩ ∨ x ∈ crateForest.ancestors ⟨2⟩ := by
      decide +kernel
    exact fun x hx => hwf.within_iff.mpr (hwf.reflTransGen_iff.mpr (hup x hx))
  obtain ⟨inner, hinner, hcheck⟩ := exists_of_toOption
    (x := crateForest.locate ⟨0⟩ "inner" .single) (b := .ok ())
    (k := fun site => crateForest.checkAdoption ⟨0⟩ ⟨3⟩ site.property) (by decide +kernel)
  obtain ⟨parts, hparts, -⟩ := exists_of_toOption
    (x := crateForest.locate ⟨2⟩ "parts" .multiple) (k := fun _ => ()) (b := ()) (by decide +kernel)
  obtain ⟨inner', hinner', -⟩ := exists_of_toOption
    (x := crateForest.locate ⟨2⟩ "inner" .single) (k := fun _ => ()) (b := ()) (by decide +kernel)
  have hempty : crateForest.slot ⟨2⟩ "inner" .single ≠ .ok (.child (some ⟨0⟩)) := by decide +kernel
  have hfilled : crateForest.slot ⟨0⟩ "inner" .single = .ok (.child (some ⟨1⟩)) := by
    decide +kernel
  have hsingle := (attachment_exact crateModel_built hreach ⟨0⟩ "inner" ⟨3⟩).2
  refine ⟨?_, ?_, ?_⟩
  · obtain ⟨g, hg⟩ := hsingle.granted_iff.mpr
      ⟨_, offers_of_locate hinner, .inr (hwf.attachable_iff.mpr hcheck)⟩
    obtain ⟨site, s, -, hs, hattached⟩ := hsingle.change g hg
    obtain rfl := Except.ok.inj (hs.symm.trans hfilled)
    exact ⟨g, site, hg, hattached⟩
  · exact (attachment_exact crateModel_built hreach ⟨2⟩ "parts" ⟨1⟩).1.cyclic _
      (offers_of_locate hparts) not_false (hwithin ⟨1⟩ (by decide))
  · exact (attachment_exact crateModel_built hreach ⟨2⟩ "inner" ⟨0⟩).2.cyclic _
      (offers_of_locate hinner') hempty (hwithin ⟨0⟩ (by decide))

end Forest

end TypedForest
