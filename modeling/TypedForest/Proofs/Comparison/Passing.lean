import TypedForest.Proofs.Comparison
import TypedForest.Proofs.Value.Equality

/-!
# Comparisons in a row

Whether a comparison passes is a relation between trees, in which messages have no part.
Here it is set out level by level for any two forests: they need not share a metamodel,
and lists may be null or ignored on either side.

In this form the relation is seen to be transitive.  Each property of the first tree has
a counterpart in the second, and that counterpart is one of the properties that the
second comparison looks at.  Nothing is assumed about the forests.

Symmetry asks for more, since the expected side decides what is compared.  Over one
metamodel and without ignored lists the comparison is one of walks, and both sides have
the same say.

## Main Definitions

* `Comparison.SlotsPass`: comparing two slots passes, given which nodes pass.
* `Comparison.Level`: so does one level of comparing nodes.
* `Comparison.Passes`: comparing two nodes passes within a budget.

## Main Results

* `Comparison.nodes_eq_ok_iff_passes`: this relation is what the comparison decides.
* `Comparison.Passes.trans`: it is transitive.
* `Comparison.Facing.nodes_symm`: without ignored lists it is symmetric.
* `Comparison.passing_trans_symm`: both, for comparisons of trees.
-/

namespace TypedForest

namespace Comparison

variable {c : Comparison} {expected actual f g h : Forest} {e a u v w : NodeId}

/-- Comparing the slots passes, where `P` says which nodes pass. -/
def SlotsPass (c : Comparison) (expected actual : Forest) (P : NodeId → NodeId → Prop)
    (s t : Slot) : Prop :=
  s = .ignored ∨ c.SlotsAgree expected actual s t ∧ List.Forall₂ P s.owned t.owned

/-- The facet has a counterpart, and comparing their slots passes. -/
def FacetPasses (c : Comparison) (expected actual : Forest) (P : NodeId → NodeId → Prop)
    (counterparts : List Facet) (x : Facet) : Prop :=
  ∃ y, counterparts.find? (fun y => y.property.name == x.property.name) = some y ∧
    c.SlotsPass expected actual P x.slot y.slot

/-- Comparing the nodes passes, where `P` says which nodes below them pass. -/
structure Level (c : Comparison) (expected actual : Forest) (P : NodeId → NodeId → Prop)
    (e a : NodeId) : Prop where
  nodes : ∃ n k, expected.get? e = some n ∧ actual.get? a = some k ∧ n.type = k.type ∧
    (c.positions = true → n.position = k.position)
  facets : ∃ es as, expected.publicFacets e = .ok es ∧ actual.publicFacets a = .ok as ∧
    ∀ x ∈ es, c.FacetPasses expected actual P as x

/-- Comparing the nodes passes within a budget. -/
def Passes (c : Comparison) (expected actual : Forest) : Nat → NodeId → NodeId → Prop
  | 0 => fun _ _ => False
  | budget + 1 => c.Level expected actual (c.Passes expected actual budget)

/-! ### The comparison decides the relation -/

section

variable {node : String → NodeId → NodeId → Except Error Unit} {P : NodeId → NodeId → Prop}
  (hnode : ∀ e a place, node place e a = .ok () ↔ P e a) {place : String}
include hnode

theorem slots_eq_ok_iff_pass {s t : Slot} :
    c.slots expected actual node place s t = .ok () ↔ c.SlotsPass expected actual P s t := by
  by_cases hs : s = .ignored
  · subst hs
    exact ⟨fun _ => .inl rfl, fun _ => rfl⟩
  · rw [slots_eq_ok_iff hs fun e _ a _ => hnode e a, SlotsPass, or_iff_right hs]

theorem facets_eq_ok_iff_passes {counterparts : List Facet} {x : Facet} :
    c.facets expected actual node place counterparts x = .ok () ↔
      c.FacetPasses expected actual P counterparts x := by
  rw [facets, FacetPasses]
  cases counterparts.find? fun y => y.property.name == x.property.name with
  | none => simp
  | some y => simp [slots_eq_ok_iff_pass hnode]

end

/-- **The relation is what the comparison decides.** -/
theorem nodes_eq_ok_iff_passes {budget : Nat} {place : String} :
    c.nodes expected actual budget place e a = .ok () ↔ c.Passes expected actual budget e a := by
  induction budget generalizing e a place with
  | zero => exact ⟨nofun, False.elim⟩
  | succ budget ih =>
      have hnode : ∀ e a place, c.nodes expected actual budget place e a = .ok () ↔
          c.Passes expected actual budget e a := fun _ _ _ => ih
      rw [nodes]
      constructor
      · intro hok
        obtain ⟨n, hn, hok⟩ := bind_eq_ok.mp hok
        obtain ⟨k, hk, hok⟩ := bind_eq_ok.mp hok
        split at hok
        case isTrue => cases hok
        split at hok
        case isTrue => cases hok
        case isFalse.isFalse htype hposition =>
          obtain ⟨as, has, hok⟩ := bind_eq_ok.mp hok
          obtain ⟨es, hes, hok⟩ := bind_eq_ok.mp hok
          exact
            { nodes := ⟨n, k, Forest.node_eq_ok.mp hn, Forest.node_eq_ok.mp hk, not_not.mp htype,
                fun hc => not_not.mp fun hne => hposition ⟨hc, hne⟩⟩
              facets := ⟨es, as, hes, has, fun x hx =>
                (facets_eq_ok_iff_passes hnode).mp (forM_eq_ok_iff.mp hok x hx)⟩ }
      · rintro ⟨⟨n, k, hn, hk, htype, hposition⟩, es, as, hes, has, hfacets⟩
        refine bind_eq_ok.mpr ⟨n, Forest.node_eq_ok.mpr hn, ?_⟩
        refine bind_eq_ok.mpr ⟨k, Forest.node_eq_ok.mpr hk, ?_⟩
        rw [if_neg (not_not_intro htype), if_neg fun hne => hne.2 (hposition hne.1)]
        refine bind_eq_ok.mpr ⟨as, has, bind_eq_ok.mpr ⟨es, hes, ?_⟩⟩
        exact forM_eq_ok_iff.mpr fun x hx => (facets_eq_ok_iff_passes hnode).mpr (hfacets x hx)

/-- Nodes that pass exist. -/
theorem Passes.isSome {budget : Nat} (hpasses : c.Passes expected actual budget e a) :
    (expected.get? e).isSome ∧ (actual.get? a).isSome := by
  cases budget with
  | zero => exact hpasses.elim
  | succ budget =>
      obtain ⟨n, k, hn, hk, -⟩ := Level.nodes hpasses
      exact ⟨Option.isSome_of_eq_some hn, Option.isSome_of_eq_some hk⟩

/-! ### Contents -/

theorem sameValue_symm {x y : Value} (hxy : c.sameValue x y = true) :
    c.sameValue y x = true := by
  unfold sameValue at hxy ⊢
  split_ifs at hxy ⊢
  · exact beq_iff_eq.mpr (beq_iff_eq.mp hxy).symm
  · exact Value.equal_symm hxy

theorem sameValue_trans {x y z : Value} (hxy : c.sameValue x y = true)
    (hyz : c.sameValue y z = true) : c.sameValue x z = true := by
  unfold sameValue at hxy hyz ⊢
  split_ifs at hxy hyz ⊢
  · exact beq_iff_eq.mpr ((beq_iff_eq.mp hxy).trans (beq_iff_eq.mp hyz))
  · exact Value.equal_trans hxy hyz

theorem slotsAgree_value_iff {x y : Value} :
    c.SlotsAgree f g (.value x) (.value y) ↔ c.sameValue x y = true := by
  unfold SlotsAgree sameValue
  split_ifs
  · exact beq_iff_eq.symm
  · exact Iff.rfl

namespace SlotsAgree

variable {r s t : Slot}

theorem ne_ignored (hst : c.SlotsAgree f g s t) : t ≠ .ignored := by
  rintro rfl
  cases s <;> exact hst

theorem symm (hst : c.SlotsAgree f g s t) : c.SlotsAgree g f t s := by
  cases s with
  | value x =>
      cases t with
      | value y => exact slotsAgree_value_iff.mpr (sameValue_symm (slotsAgree_value_iff.mp hst))
      | _ => cases hst
  | child =>
      cases t with
      | child => exact Eq.symm hst
      | _ => cases hst
  | children =>
      cases t with
      | children => exact Eq.symm hst
      | _ => cases hst
  | reference =>
      cases t with
      | reference => exact Eq.symm hst
      | _ => cases hst
  | ignored => cases hst

theorem trans (hrs : c.SlotsAgree f g r s) (hst : c.SlotsAgree g h s t) :
    c.SlotsAgree f h r t := by
  -- Both sides of either agreement are of the kind that the middle one has.
  cases s with
  | value y =>
      cases r with
      | value x =>
          cases t with
          | value z =>
              exact slotsAgree_value_iff.mpr (sameValue_trans (slotsAgree_value_iff.mp hrs)
                (slotsAgree_value_iff.mp hst))
          | _ => cases hst
      | _ => cases hrs
  | child =>
      cases r with
      | child =>
          cases t with
          | child => exact Eq.trans hrs hst
          | _ => cases hst
      | _ => cases hrs
  | children =>
      cases r with
      | children =>
          cases t with
          | children => exact Eq.trans hrs hst
          | _ => cases hst
      | _ => cases hrs
  | reference =>
      cases r with
      | reference =>
          cases t with
          | reference => exact Eq.trans hrs hst
          | _ => cases hst
      | _ => cases hrs
  | ignored => exact absurd rfl hrs.ne_ignored

end SlotsAgree

/-! ### Transitivity -/

section

variable {P Q R : NodeId → NodeId → Prop} (hcompose : ∀ u v w, P u v → Q v w → R u w)
include hcompose

theorem forall₂_trans {l k j : List NodeId} (hlk : List.Forall₂ P l k)
    (hkj : List.Forall₂ Q k j) : List.Forall₂ R l j := by
  induction hlk generalizing j with
  | nil =>
      cases hkj
      exact .nil
  | cons hhead _ ih =>
      cases hkj with
      | cons hhead' htail => exact .cons (hcompose _ _ _ hhead hhead') (ih htail)

theorem SlotsPass.trans {r s t : Slot} (hrs : c.SlotsPass f g P r s)
    (hst : c.SlotsPass g h Q s t) : c.SlotsPass f h R r t := by
  rcases hrs with hignored | ⟨hagree, hnodes⟩
  · exact .inl hignored
  · -- What agrees with something is not ignored, so the second comparison looks at it.
    rcases hst with hignored | ⟨hagree', hnodes'⟩
    · exact absurd hignored hagree.ne_ignored
    · exact .inr ⟨hagree.trans hagree', forall₂_trans hcompose hnodes hnodes'⟩

theorem Level.trans (huv : c.Level f g P u v) (hvw : c.Level g h Q v w) :
    c.Level f h R u w := by
  obtain ⟨⟨n, k, hn, hk, htype, hposition⟩, es, as, hes, has, hfacets⟩ := huv
  obtain ⟨⟨k', j, hk', hj, htype', hposition'⟩, as', bs, has', hbs, hfacets'⟩ := hvw
  obtain rfl : k = k' := Option.some.inj (hk.symm.trans hk')
  obtain rfl : as = as' := Except.ok.inj (has.symm.trans has')
  refine ⟨⟨n, j, hn, hj, htype.trans htype', fun hc => (hposition hc).trans (hposition' hc)⟩,
    es, bs, hes, hbs, fun x hx => ?_⟩
  obtain ⟨y, hy, hslots⟩ := hfacets x hx
  -- The counterpart is a property of the middle node, and the second comparison finds a
  -- counterpart for it under the same name.
  obtain ⟨z, hz, hslots'⟩ := hfacets' y (List.mem_of_find?_eq_some hy)
  have hname : y.property.name = x.property.name :=
    beq_iff_eq.mp (List.find?_some hy :)
  exact ⟨z, hname ▸ hz, hslots.trans hcompose hslots'⟩

end

/-- **The relation is transitive.**  The budget of the first comparison is enough. -/
theorem Passes.trans {budget budget' : Nat} (huv : c.Passes f g budget u v)
    (hvw : c.Passes g h budget' v w) : c.Passes f h budget u w := by
  induction budget generalizing budget' u v w with
  | zero => exact huv
  | succ budget ih =>
      cases budget' with
      | zero => exact hvw.elim
      | succ budget' =>
          exact Level.trans (P := c.Passes f g budget) (Q := c.Passes g h budget')
            (fun _ _ _ => ih) huv hvw

/-! ### Symmetry -/

namespace Facing

theorem symm (hfacing : Facing f g) : Facing g f where
  built := hfacing.built_right
  metamodel_eq := hfacing.metamodel_eq.symm
  left := hfacing.right
  right := hfacing.left

theorem alike_symm (hfacing : Facing f g) (hu : (f.get? u).isSome) (hv : (g.get? v).isSome)
    (halike : c.Alike f g u v) : c.Alike g f v u := by
  obtain ⟨htype, hposition, hslots⟩ := (hfacing.alike_iff hu hv).mp halike
  refine (hfacing.symm.alike_iff hv hu).mpr
    ⟨htype.symm, fun hc => (hposition hc).symm, fun p hp => (hslots p ?_).symm⟩
  rwa [htype, ← hfacing.metamodel_eq]

/-- Nodes that agree with something have no ignored lists. -/
theorem ne_ignored_of_alike (hfacing : Facing f g) (hu : (f.get? u).isSome)
    (hv : (g.get? v).isSome) (halike : c.Alike f g u v) :
    ∀ facet ∈ g.visible v, facet.slot ≠ .ignored := by
  obtain ⟨htype, -, hslots⟩ := (hfacing.alike_iff hu hv).mp halike
  rw [hfacing.right.visible_eq hfacing.built_right hv, List.forall_mem_map]
  intro p hp
  rw [hfacing.metamodel_eq, ← htype] at hp
  exact (hslots p hp).ne_ignored

/-- **Without ignored lists the relation is symmetric.** -/
theorem nodes_symm (hfacing : Facing f g)
    (hchecked : ∀ x ∈ f.preorder u, ∀ facet ∈ f.visible x, facet.slot ≠ .ignored)
    {budget budget' : Nat} (hbudget : f.size < budget + f.depth u)
    (hbudget' : g.size < budget' + g.depth v) {place place' : String}
    (hok : c.nodes f g budget place u v = .ok ()) : c.nodes g f budget' place' v u = .ok () := by
  obtain ⟨hu, hv⟩ := (nodes_eq_ok_iff_passes.mp hok).isSome
  have hleft : ∀ x ∈ f.preorder u, (f.get? x).isSome := fun _ => hfacing.left.exists_of_mem_preorder
  have hright : ∀ y ∈ g.preorder v, (g.get? y).isSome := fun _ =>
    hfacing.right.exists_of_mem_preorder
  obtain ⟨hlength, hwalk⟩ := List.forall₂_iff_get.mp
    ((hfacing.nodes_eq_ok_iff hbudget hu hv hchecked place).mp hok)
  refine (hfacing.symm.nodes_eq_ok_iff hbudget' hv hu ?_ place').mpr
    (List.forall₂_iff_get.mpr ⟨hlength.symm, fun i hi hi' => ?_⟩)
  · intro y hy
    obtain ⟨⟨i, hi⟩, rfl⟩ := List.get_of_mem hy
    have hi' : i < (f.preorder u).length := hlength ▸ hi
    exact hfacing.ne_ignored_of_alike (hleft _ (List.get_mem _ ⟨i, hi'⟩)) (hright _ hy)
      (hwalk i hi' hi)
  · exact hfacing.alike_symm (hleft _ (List.get_mem _ _)) (hright _ (List.get_mem _ _))
      (hwalk i hi' hi)

end Facing

/-- **Comparisons that pass compose, and without ignored lists they pass both ways.**  For
any strictness: if a tree passes for a second one and the second for a third, then the
first passes for the third.  The forests may have different metamodels, and their lists
may be null or ignored.  For two trees that edits lead to over one metamodel, the first of
them without ignored lists, a comparison that passes does so with the sides exchanged. -/
theorem passing_trans_symm (c : Comparison) :
    (∀ {f g h : Forest} {u v w : NodeId}, c.trees f u g v = .ok () →
      c.trees g v h w = .ok () → c.trees f u h w = .ok ()) ∧
    ∀ {m : Metamodel}, m.Built → ∀ {f g : Forest}, Forest.Reachable m f →
      Forest.Reachable m g → ∀ {u v : NodeId},
      (∀ x ∈ f.preorder u, ∀ facet ∈ f.visible x, facet.slot ≠ .ignored) →
      c.trees f u g v = .ok () → c.trees g v f u = .ok () := by
  constructor
  · intro f g h u v w hfg hgh
    exact nodes_eq_ok_iff_passes.mpr
      ((nodes_eq_ok_iff_passes.mp hfg).trans (nodes_eq_ok_iff_passes.mp hgh))
  · intro m hm f g hf hg u v hchecked hok
    have hfacing : Facing f g :=
      { built := hf.metamodel_eq ▸ hm
        metamodel_eq := hg.metamodel_eq.trans hf.metamodel_eq.symm
        left := hf.sound
        right := hg.sound }
    exact hfacing.nodes_symm hchecked (by omega) (by omega) hok

/-- Pages have parts and a link, and whatever else is given. -/
def pageModel (others : List Property) : Metamodel :=
  Metamodel.grow
    [.type { name := "Page", properties := others ++
       [{ name := "parts", kind := .multiple }, { name := "link", kind := .reference }] }]
    { name := "pages" }

theorem pageModel_built (others : List Property) : (pageModel others).Built :=
  (Metamodel.Built.empty "pages").grow _

/-- A page with a part that links back to it, followed by further edits. -/
def pages (others : List Property) (further : List Command) : Forest :=
  Forest.run ([.create "Page", .create "Page", .append ⟨0⟩ "parts" ⟨1⟩,
    .setReference ⟨1⟩ "link" (some ⟨"top", some ⟨0⟩⟩)] ++ further)
    { metamodel := pageModel others }

/-- The parts of the part are left open. -/
def openPages : Forest := pages [] [.ignore ⟨1⟩ "parts"]

/-- There are none, and the part has a note. -/
def notedPages : Forest :=
  pages [{ name := "note", kind := .value }]
    [.clear ⟨1⟩ "parts", .setValue ⟨1⟩ "note" (.float (.ofBits 0x8000000000000000))]

/-- There are none, the part has an equal note, and pages have more properties. -/
def datedPages : Forest :=
  pages [{ name := "date", kind := .value }, { name := "note", kind := .value }]
    [.clear ⟨1⟩ "parts", .setValue ⟨1⟩ "note" (.float (.ofBits 0)),
     .setValue ⟨0⟩ "date" (.int 7)]

theorem passing_trans_symm_pages :
    (openPages.metamodel ≠ notedPages.metamodel ∧ notedPages.metamodel ≠ datedPages.metamodel) ∧
    trees {} openPages ⟨0⟩ datedPages ⟨0⟩ = .ok () ∧
    trees {} notedPages ⟨0⟩ openPages ⟨0⟩ ≠ .ok () ∧
    trees { lightweight := true } itemSketchReversed ⟨2⟩ itemSketch ⟨0⟩ = .ok () := by
  have hchecked : ∀ x ∈ itemSketch.preorder ⟨0⟩, ∀ facet ∈ itemSketch.visible x,
      facet.slot ≠ .ignored := by decide +kernel
  refine ⟨by decide +kernel, ?_, by decide +kernel, ?_⟩
  · exact (passing_trans_symm {}).1 (g := notedPages) (v := ⟨0⟩) (by decide +kernel)
      (by decide +kernel)
  · exact (passing_trans_symm _).2 Document.itemModel_built itemSketch_reachable
      itemSketchReversed_reachable hchecked (by decide +kernel)

end Comparison

end TypedForest
