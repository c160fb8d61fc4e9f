import TypedForest.Proofs.Comparison.Passing
import TypedForest.Proofs.View.Edited

/-!
# Ignoring a list of children

A list that is marked as ignored is skipped by comparisons.  Marking it also sets its nodes
free, and that is felt elsewhere: the paths of these nodes, and of all nodes below them,
now start at the released nodes.  References are compared by the labels of their targets.
So a reference that leads from the rest of the tree into the list differs from its
counterpart after the list was marked, although it did not before.

Nothing else can go wrong.  A comparison that passes still passes after a list was
marked if, and only if, no reference outside the list leads into it.

## Main Definitions

* `Comparison.Loosened`: a forest in which further lists are ignored.

## Main Results

* `Loosened.passes_iff`: what passes after lists were marked.
* `Comparison.ignoring_passes_iff`: when ignoring a list keeps a comparison passing.
-/

namespace TypedForest

theorem Slot.target?_of_kind_multiple {s : Slot} (h : s.kind = .multiple) : s.target? = none := by
  cases s with
  | reference r => cases h
  | _ => rfl

namespace Comparison

open Forest

variable {c : Comparison} {f g actual : Forest} {x y : NodeId} {s t : Slot}

/-! ### Comparisons with a loosened side -/

/-- The nodes of `f`, with lists that are ignored in addition. -/
structure Loosened (f g : Forest) : Prop extends f.SameOutlines g where
  exists_facet : ∀ {x : NodeId} {q : Property} {s : Slot}, ⟨q, s⟩ ∈ g.visible x →
    ∃ old, ⟨q, old⟩ ∈ f.visible x ∧ (s = .ignored ∨ s = old)

/-- The target of a reference, if there is one, has the same label in both forests. -/
def KeepsTarget (f g : Forest) (s : Slot) : Prop := ∀ t ∈ s.target?, g.label t = f.label t

theorem keepsTarget_of_target?_eq_none (h : s.target? = none) : KeepsTarget f g s := by
  intro t ht
  rw [h] at ht
  cases ht

/-- Contents that agreed still agree exactly if the target has kept its label. -/
theorem SlotsAgree.relabel_iff (h : c.SlotsAgree f actual s t) :
    c.SlotsAgree g actual s t ↔ KeepsTarget f g s := by
  cases s with
  | reference r =>
      cases t with
      | reference q =>
          have hlabels : c.SlotsAgree g actual (.reference r) (.reference q) ↔
              r.map (fun r => (r.name, r.target.map g.label)) =
                r.map fun r => (r.name, r.target.map f.label) := by
            rw [SlotsAgree, ← show _ = _ from h]
          rw [hlabels]
          cases r with
          | none => simp [KeepsTarget, Slot.target?]
          | some r => cases hr : r.target <;> simp [KeepsTarget, Slot.target?, hr]
      | _ => cases h
  | value | child | children =>
      cases t <;> exact ⟨fun _ => keepsTarget_of_target?_eq_none rfl, fun _ => h⟩
  | ignored => cases h

section

variable {P Q : NodeId → NodeId → Prop} {R : NodeId → Prop}

/-- Pairs that passed still pass exactly if the left sides allow it. -/
theorem forall₂_iff_forall_left {l k : List NodeId} (h : List.Forall₂ P l k)
    (hnode : ∀ d ∈ l, ∀ b, P d b → (Q d b ↔ R d)) :
    List.Forall₂ Q l k ↔ ∀ d ∈ l, R d := by
  induction h with
  | nil => simp
  | @cons d b l k hdb _ ih =>
      rw [List.forall_mem_cons] at hnode
      rw [List.forall₂_cons, List.forall_mem_cons, hnode.1 b hdb, ih hnode.2]

theorem SlotsPass.relabel_iff (h : c.SlotsPass f actual P s t)
    (hnode : ∀ d ∈ s.owned, ∀ b, P d b → (Q d b ↔ R d)) :
    c.SlotsPass g actual Q s t ↔ KeepsTarget f g s ∧ ∀ d ∈ s.owned, R d := by
  rcases h with rfl | ⟨hagree, hnodes⟩
  · exact ⟨fun _ => ⟨keepsTarget_of_target?_eq_none rfl, List.forall_mem_nil _⟩, fun _ => .inl rfl⟩
  · have hchecked : s ≠ .ignored := by
      rintro rfl
      exact hagree
    rw [SlotsPass, or_iff_right hchecked, hagree.relabel_iff, forall₂_iff_forall_left hnodes hnode]

/-- One level of the comparison.  A list that is ignored in addition is not looked at, and
the nodes in it are no longer below. -/
theorem Loosened.level_iff (h : Loosened f g) (hlevel : c.Level f actual P x y)
    (hnode : ∀ d ∈ g.children x, ∀ b, P d b → (Q d b ↔ R d)) :
    c.Level g actual Q x y ↔
      (∀ facet ∈ g.visible x, KeepsTarget f g facet.slot) ∧ ∀ d ∈ g.children x, R d := by
  obtain ⟨⟨n, k, hn, hk, htype, hposition⟩, es, as, hes, has, hfacets⟩ := hlevel
  obtain ⟨n', hn', htype', hposition'⟩ := h.exists_node hn
  have hvisible := h.left.publicFacets_eq_visible (Option.isSome_of_eq_some hn)
  have hvisible' := h.right.publicFacets_eq_visible (Option.isSome_of_eq_some hn')
  obtain rfl := Except.ok.inj (hvisible.symm.trans hes)
  have hpass : ∀ facet ∈ g.visible x, c.FacetPasses g actual Q as facet ↔
      KeepsTarget f g facet.slot ∧ ∀ d ∈ facet.slot.owned, R d := by
    rintro ⟨q, s⟩ hfacet
    obtain ⟨old, hold, hs⟩ := h.exists_facet hfacet
    obtain ⟨z, hz, hslots⟩ := hfacets _ hold
    have hcounterpart : c.FacetPasses g actual Q as ⟨q, s⟩ ↔ c.SlotsPass g actual Q s z.slot := by
      simp [FacetPasses, hz]
    rw [hcounterpart]
    rcases hs with rfl | rfl
    · exact ⟨fun _ => ⟨keepsTarget_of_target?_eq_none rfl, List.forall_mem_nil _⟩,
        fun _ => .inl rfl⟩
    · exact hslots.relabel_iff fun d hd => hnode d (mem_children_of_mem_owned hfacet hd)
  rw [children_eq_flatMap, List.forall_mem_flatMap, ← forall₂_and, ← forall₂_congr hpass]
  constructor
  · rintro ⟨-, es, as', hes, has', hfacets'⟩
    obtain rfl := Except.ok.inj (hvisible'.symm.trans hes)
    obtain rfl := Except.ok.inj (has.symm.trans has')
    exact hfacets'
  · intro hfacets'
    exact ⟨⟨n', k, hn', hk, htype'.trans htype, fun hc => hposition'.trans (hposition hc)⟩, _, as,
      hvisible', has, hfacets'⟩

end

/-- **What passes after lists were marked as ignored.**  A comparison that passed before
still passes exactly if, in what is left of the tree, the targets of references have kept
their labels. -/
theorem Loosened.passes_iff (h : Loosened f g) {budget : Nat}
    (hpasses : c.Passes f actual budget x y) :
    c.Passes g actual budget x y ↔
      ∀ z ∈ g.preorder x, ∀ facet ∈ g.visible z, KeepsTarget f g facet.slot := by
  induction budget generalizing x y with
  | zero => exact hpasses.elim
  | succ budget ih =>
      obtain ⟨n, hn⟩ := Option.isSome_iff_exists.mp hpasses.isSome.1
      obtain ⟨n', hn', -⟩ := h.exists_node hn
      have hnode : ∀ d ∈ g.children x, ∀ b, c.Passes f actual budget d b →
          (c.Passes g actual budget d b ↔
            ∀ z ∈ g.preorder d, ∀ facet ∈ g.visible z, KeepsTarget f g facet.slot) :=
        fun d _ b hdb => ih hdb
      rw [Passes, h.level_iff hpasses hnode, h.right.preorder_eq (Option.isSome_of_eq_some hn'),
        below, List.forall_mem_cons, List.forall_mem_flatMap]

/-! ### Ignoring a list -/

theorem loosened_of_ignored {owner : NodeId} {site : Site} (h : f.Admits owner site .ignored)
    (hf : f.Sound) (hm : f.metamodel.Built) :
    Loosened f (f.refill owner site.index .ignored) where
  toSameOutlines := h.sameOutlines hf hm
  exists_facet := by
    intro x q s hfacet
    obtain ⟨old, hold, rfl⟩ := (h.mem_visible_refill hf hm).mp hfacet
    refine ⟨old, hold, ?_⟩
    split
    · exact .inl rfl
    · exact .inr rfl

/-- Before and after, the same references lead to the same targets. -/
theorem exists_target_ignored_iff {owner : NodeId} {site : Site}
    (h : f.Admits owner site .ignored) (hf : f.Sound) (hm : f.metamodel.Built) {t : NodeId} :
    (∃ facet ∈ (f.refill owner site.index .ignored).visible x, facet.slot.target? = some t) ↔
      ∃ facet ∈ f.visible x, facet.slot.target? = some t := by
  constructor
  · rintro ⟨⟨q, s⟩, hfacet, ht⟩
    obtain ⟨old, hold, rfl⟩ := (h.mem_visible_refill hf hm).mp hfacet
    refine ⟨_, hold, ?_⟩
    split at ht
    · cases ht
    · exact ht
  · rintro ⟨⟨q, s⟩, hfacet, ht⟩
    refine ⟨⟨q, s⟩, (h.mem_visible_refill hf hm).mpr ⟨s, hfacet, ?_⟩, ht⟩
    rw [if_neg]
    rintro ⟨rfl, rfl⟩
    -- The slot of a list holds no reference.
    obtain ⟨site', hproperty, -, hslot⟩ := hf.exists_site_of_mem_visible hm hfacet
    have hkind : s.kind = .multiple := by rw [hslot.kind_eq hf, hproperty, ← h.kind_eq]; rfl
    rw [Slot.target?_of_kind_multiple hkind] at ht
    cases ht

/-- **When ignoring a list keeps a comparison passing.**  Let a tree that edits lead to pass
for any other tree, under any strictness, and let a public list of one of its nodes be
marked as ignored.  The comparison still passes if and only if no public reference leads
into the list from a node of the tree that is not in it. -/
theorem ignoring_passes_iff {m : Metamodel} (hm : m.Built) {f : Forest} (hf : Reachable m f)
    (c : Comparison) {actual : Forest} {root a : NodeId}
    (hpass : c.trees f root actual a = .ok ()) {n : NodeId} (hn : n ∈ f.preorder root)
    {p : Property} {s : Slot} (hfacet : ⟨p, s⟩ ∈ f.visible n) (hkind : p.kind = .multiple) :
    ∃ g, Edit.ignore n p.name f = .ok () g ∧
      (c.trees g root actual a = .ok () ↔
        ∀ x ∈ f.preorder root, ¬ f.Inside s.owned x →
          ∀ facet ∈ f.visible x, ∀ t ∈ facet.slot.target?, ¬ f.Inside s.owned t) := by
  have hsound := hf.sound
  have hbuilt : f.metamodel.Built := hf.metamodel_eq ▸ hm
  obtain ⟨site, hproperty, hslot, hadmits, hedit⟩ := hsound.exists_ignore hbuilt hfacet hkind
  obtain ⟨k, hat⟩ := hslot.slotAt hsound
  refine ⟨_, hedit, ?_⟩
  rw [trees, nodes_eq_ok_iff_passes] at hpass
  rw [trees, nodes_eq_ok_iff_passes, size_refill,
    (loosened_of_ignored hadmits hsound hbuilt).passes_iff hpass, ← hat.ownedAt_eq]
  have hmem := fun x => hadmits.mem_preorder_released (x := x) hsound rfl (isSome_root hn)
    (hsound.not_inside_of_mem_preorder hn)
  constructor
  · intro hkeeps x hx houtside facet hfacet t ht
    obtain ⟨facet', hfacet', ht'⟩ :=
      (exists_target_ignored_iff hadmits hsound hbuilt).mpr ⟨facet, hfacet, ht⟩
    exact (hadmits.label_released_iff hsound rfl (hsound.isSome_of_target hbuilt hfacet ht)).mp
      (hkeeps x ((hmem x).mpr ⟨hx, houtside⟩) facet' hfacet' t ht')
  · intro houtside x hx facet hfacet t ht
    obtain ⟨hx, hxoutside⟩ := (hmem x).mp hx
    obtain ⟨facet', hfacet', ht'⟩ :=
      (exists_target_ignored_iff hadmits hsound hbuilt).mp ⟨facet, hfacet, ht⟩
    exact (hadmits.label_released_iff hsound rfl (hsound.isSome_of_target hbuilt hfacet' ht')).mpr
      (houtside x hx hxoutside facet' hfacet' t ht')

/-- Two pages that follow a top page.  The first has a part, which links to the second. -/
def chapters (further : List Command) : Forest :=
  pages [] ([.create "Page", .create "Page", .append ⟨1⟩ "parts" ⟨2⟩, .append ⟨0⟩ "parts" ⟨3⟩,
    .setReference ⟨2⟩ "link" (some ⟨"next", some ⟨3⟩⟩)] ++ further)

/-- The second page links back to that part. -/
def linkedChapters : Forest := chapters [.setReference ⟨3⟩ "link" (some ⟨"back", some ⟨2⟩⟩)]

theorem linkedChapters_reachable : Reachable (pageModel []) linkedChapters := ⟨_, rfl⟩

theorem linkedChapters_parts : ∃ p, ⟨p, .children (some [⟨2⟩])⟩ ∈ linkedChapters.visible ⟨1⟩ ∧
    p.name = "parts" ∧ p.kind = .multiple :=
  exists_facet_of_find? linkedChapters ⟨1⟩ "parts" (.children (some [⟨2⟩])) .multiple
    (by decide +kernel)

/-- The parts of the first chapter are ignored.  Their link out of the list goes with them,
but a link from the second chapter back into the list is missed. -/
theorem ignoring_passes_iff_chapters :
    (∃ g, Edit.ignore ⟨1⟩ "parts" (chapters []) = .ok () g ∧
      trees {} g ⟨0⟩ (chapters []) ⟨0⟩ = .ok ()) ∧
    ∃ g, Edit.ignore ⟨1⟩ "parts" linkedChapters = .ok () g ∧
      trees {} g ⟨0⟩ linkedChapters ⟨0⟩ ≠ .ok () := by
  have hreach : Reachable (pageModel []) (chapters []) := ⟨_, rfl⟩
  have hpass : trees {} (chapters []) ⟨0⟩ (chapters []) ⟨0⟩ = .ok () := by decide +kernel
  have hpass' : trees {} linkedChapters ⟨0⟩ linkedChapters ⟨0⟩ = .ok () := by decide +kernel
  obtain ⟨p, hp, hname, hkind⟩ := exists_facet_of_find? (chapters []) ⟨1⟩ "parts"
    (.children (some [⟨2⟩])) .multiple (by decide +kernel)
  obtain ⟨q, hq, hname', hkind'⟩ := linkedChapters_parts
  obtain ⟨g, hedit, hiff⟩ := ignoring_passes_iff (pageModel_built []) hreach {} hpass
    (by decide +kernel) hp hkind
  obtain ⟨g', hedit', hiff'⟩ := ignoring_passes_iff (pageModel_built []) linkedChapters_reachable {}
    hpass' (by decide +kernel) hq hkind'
  rw [hname] at hedit
  rw [hname'] at hedit'
  simp only [hreach.sound.wellFormed.inside_iff] at hiff
  simp only [linkedChapters_reachable.sound.wellFormed.inside_iff] at hiff'
  exact ⟨⟨g, hedit, hiff.mpr (by decide +kernel)⟩, g', hedit', hiff'.not.mpr (by decide +kernel)⟩

/-- A tree passes for itself.  After the parts of the first chapter were marked as ignored it
does not: the link of the second chapter leads to a node that has another label now. -/
theorem ignoring_breaks_link :
    ((pageModel []).Built ∧ Reachable (pageModel []) linkedChapters) ∧
    ⟨1⟩ ∈ linkedChapters.preorder ⟨0⟩ ∧
    (∃ p, ⟨p, .children (some [⟨2⟩])⟩ ∈ linkedChapters.visible ⟨1⟩ ∧ p.name = "parts" ∧
      p.kind = .multiple) ∧
    trees {} linkedChapters ⟨0⟩ linkedChapters ⟨0⟩ = .ok () ∧
    ∃ g, Edit.ignore ⟨1⟩ "parts" linkedChapters = .ok () g ∧
      trees {} g ⟨0⟩ linkedChapters ⟨0⟩ = .error (.different "<root>.parts[1].link"
        (.target (some "Page@root") (some "Page@root.parts[0].parts[0]"))) := by
  obtain ⟨g, hedit, htrees⟩ := linkedChapters_reachable.sound.exists_edit_of_effect
    (k := fun g => trees {} g ⟨0⟩ linkedChapters ⟨0⟩) (c := .ignore ⟨1⟩ "parts")
    (b := .error (.different "<root>.parts[1].link"
      (.target (some "Page@root") (some "Page@root.parts[0].parts[0]")))) (by decide +kernel)
  exact ⟨⟨pageModel_built [], linkedChapters_reachable⟩, by decide +kernel, linkedChapters_parts,
    by decide +kernel, g, hedit, htrees⟩

end Comparison

end TypedForest
