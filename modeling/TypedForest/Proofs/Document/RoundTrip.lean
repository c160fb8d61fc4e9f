import TypedForest.Proofs.Document.Copy
import TypedForest.Proofs.Forest.Run

/-!
# Writing and reading trees

A tree that is written and read back is rebuilt, as far as it is public: its nodes
are numbered by the traversal, and every public property has its content again,
except that a list of children is there even if it was absent or ignored, that
values pass through their wire form, and that references out of the tree are left
unresolved.

What is lost that way is not written in the first place.  Hence a free tree is
written alike before and after, and it does not matter in which order its records
are read.

## Main Definitions

* `Document.Rebuilt`: a forest holds a tree of another, rebuilt.
* `Document.Rebuilds`, `Document.Settles`: what writing and reading do to a tree.

## Main Results

* `Document.tree_rebuilds`: writing and reading rebuild a tree.
* `Document.tree_settles`: reading in any order and writing again give the same
  document.
-/

namespace TypedForest

namespace Document

/-- The content that a public property is rebuilt with, `walk` being the nodes of
the tree in order. -/
def RebuiltSlot (walk : List NodeId) (p : Property) : Slot → Slot → Prop
  | .value x, s => ∃ w, s = .value w ∧ (x = .null → w = .null) ∧
      ∀ text, x.wire = some text → Value.read? p.valueType text = some w
  | .child c, s => s = .child (c.map (number walk))
  | .children cs, s => s = .children (some ((cs.getD []).map (number walk)))
  | .ignored, s => s = .children (some [])
  | .reference none, s => s = .reference none
  | .reference (some r), s => ∃ target, s = .reference (some ⟨r.name, target⟩) ∧
      ∀ d, target = some d ↔ ∃ c ∈ walk, r.target = some c ∧ d = number walk c

/-- The forest `g` consists of the nodes of `f` at and below `root`, numbered by the
traversal. -/
structure Rebuilt (f : Forest) (root : NodeId) (g : Forest) : Prop where
  metamodel_eq : g.metamodel = f.metamodel
  size_eq : g.size = (f.preorder root).length
  number_eq : ∀ (k : Nat) (v : NodeId), (f.preorder root)[k]? = some v →
    number (f.preorder root) v = ⟨k⟩
  type_eq : ∀ v ∈ f.preorder root, g.typeOf (number (f.preorder root) v) = f.typeOf v
  parent_eq : ∀ v ∈ f.preorder root, v ≠ root →
    ∃ p ∈ f.preorder root, f.parent? v = some p ∧
      g.parent? (number (f.preorder root) v) = some (number (f.preorder root) p)
  root_free : g.parent? (number (f.preorder root) root) = none
  slot_eq : ∀ v ∈ f.preorder root, ∃ t, f.metamodel.type (f.typeOf v) = .ok t ∧
    ∀ p ∈ t.effective, ∃ s s', f.slot v p.name p.kind = .ok s ∧
      g.slot (number (f.preorder root) v) p.name p.kind = .ok s' ∧
      if p.isPublic then RebuiltSlot (f.preorder root) p s s' else s' = Slot.empty p.kind

section

variable {σ : Type} [Schema σ]

/-- Writing the tree succeeds, and so does reading what was written; the outcome is
the tree rebuilt, its root in front. -/
def Rebuilds (schema : σ) (space : String) (f : Forest) (root : NodeId) : Prop :=
  ∃ d g, exportTree schema space f root = .ok d ∧
    importTree schema f.metamodel d = .ok (g, ⟨0⟩) ∧ Rebuilt f root g

/-- Writing the tree succeeds; so does reading what was written, with the records in
any order; and writing the outcome gives the same document. -/
def Settles (schema : σ) (space : String) (f : Forest) (root : NodeId) : Prop :=
  ∃ d, exportTree schema space f root = .ok d ∧
    ∀ records, d.records.Perm records →
      ∃ g root', importTree schema f.metamodel { d with records } = .ok (g, root') ∧
        exportTree schema space g root' = .ok d

end

variable {σ : Type} [Schema σ] {schema : σ} {f g : Forest} {root : NodeId} {order : List NodeId}

/-! ### Rebuilding -/

/-- The image of a slot is what it is rebuilt with. -/
theorem rebuiltSlot_image {p : Property} {s : Slot} (h : f.Accepts p s) (walk : List NodeId) :
    RebuiltSlot walk p s (image walk ⟨p, s⟩) := by
  cases s with
  | value x =>
      obtain ⟨w, hread, -, -⟩ := Forest.exists_reread (h.value_ok x rfl)
      refine ⟨w, by simp [image, hread], ?_, ?_⟩
      · rintro rfl
        exact (Option.some.inj hread).symm
      · intro text htext
        rwa [Value.reread, htext] at hread
  | child c => rfl
  | children cs => rfl
  | ignored => rfl
  | reference ref =>
      cases ref with
      | none => rfl
      | some r =>
          refine ⟨_, rfl, fun d => ?_⟩
          rw [Option.map_eq_some_iff]
          constructor
          · rintro ⟨c, hc, rfl⟩
            obtain ⟨htarget, hmem⟩ := Option.filter_eq_some_iff.mp hc
            exact ⟨c, of_decide_eq_true hmem, htarget, rfl⟩
          · rintro ⟨c, hc, htarget, rfl⟩
            exact ⟨c, Option.filter_eq_some_iff.mpr ⟨htarget, decide_eq_true hc⟩, rfl⟩

/-- The slots of a copy, by the names of their properties. -/
theorem Copy.exists_slot (hg : Copy f root order g) (h : Source schema f root order)
    {v : NodeId} (hv : v ∈ order) {t : NodeType} (ht : f.metamodel.type (f.typeOf v) = .ok t)
    {p : Property} (hp : p ∈ t.effective) :
    ∃ s, f.slot v p.name p.kind = .ok s ∧ f.Accepts p s ∧
      g.slot (number order v) p.name p.kind = .ok (copied order p s) := by
  obtain ⟨n, t', hn, ht', -, hfits, htype, htable⟩ := h.exists_node hv
  rw [htype] at ht
  obtain rfl : t = t' := Except.ok.inj (ht.symm.trans ht')
  obtain ⟨j, hj⟩ := List.mem_iff_getElem?.mp hp
  obtain ⟨s, hs, haccepts⟩ := hfits.exists_slot hj
  have hnodup := h.built.nodup_names ht
  have htype' : g.metamodel.type n.type = .ok t := by rw [hg.metamodel_eq, ht]
  refine ⟨s, Forest.slot_of_get? hn ht hnodup hj hs, haccepts, ?_⟩
  refine Forest.slot_of_get? (hg.node v hv n hn) htype' hnodup hj ?_
  simp [htable, List.getElem?_zipWith, hj, hs]

/-- A copy in the order of the traversal is the tree rebuilt. -/
theorem Copy.rebuilt (hg : Copy f root (f.preorder root) g)
    (h : Source schema f root (f.preorder root)) : Rebuilt f root g where
  metamodel_eq := hg.metamodel_eq
  size_eq := hg.size_eq
  number_eq := by
    intro k v hk
    obtain ⟨hlt, rfl⟩ := List.getElem?_eq_some_iff.mp hk
    rw [number, h.nodup.idxOf_getElem k hlt]
  type_eq := fun v hv => hg.typeOf_eq h hv
  parent_eq := by
    intro v hv hne
    obtain ⟨p, hp, hup, -⟩ := h.exists_parent hv hne
    exact ⟨p, hp, hup, by rw [hg.parent?_eq h hv, if_neg hne, hup, Option.map_some]⟩
  root_free := by rw [hg.parent?_eq h h.mem_root, if_pos rfl]
  slot_eq := by
    intro v hv
    obtain ⟨n, t, -, ht, -, -, htype, -⟩ := h.exists_node hv
    rw [← htype] at ht
    refine ⟨t, ht, fun p hp => ?_⟩
    obtain ⟨s, hs, haccepts, hs'⟩ := hg.exists_slot h hv ht hp
    refine ⟨s, _, hs, hs', ?_⟩
    unfold copied
    split
    · exact rebuiltSlot_image haccepts _
    · rfl

/-- A tree that the schema covers, in the order of the traversal. -/
theorem source_preorder (hf : f.Sound) (hm : f.metamodel.Built)
    (hschema : Schema.Faithful schema) (hroot : (f.get? root).isSome)
    (hcovers : Schema.Covers schema f root) : Source schema f root (f.preorder root) :=
  ⟨hf, hm, hschema, hroot, hcovers, .refl _⟩

theorem Source.rebuilds (h : Source schema f root (f.preorder root)) (space : String) :
    Rebuilds schema space f root := by
  have hexport : exportTree schema space f root = .ok _ :=
    exportTree_eq h.sound h.built h.faithful h.exists_root h.covers
  obtain ⟨g, himport, hg⟩ := h.exists_importTree space _
  have hzero : number (f.preorder root) root = ⟨0⟩ := by
    rw [number, h.sound.preorder_eq h.exists_root, List.idxOf_cons_self]
  rw [hzero] at himport
  exact ⟨_, g, hexport, himport, hg.rebuilt h⟩

/-! ### Settling -/

/-- A document whose records are rearranged comes from the nodes in another order. -/
theorem exists_order {nodes : List NodeId} {record : NodeId → Record} {records : List Record}
    (h : (nodes.map record).Perm records) :
    ∃ order, nodes.Perm order ∧ records = order.map record := by
  have hcomp : Relation.Comp (· = List.map record ·) List.Perm records nodes := by
    rw [List.eq_map_comp_perm]
    exact h.symm
  obtain ⟨order, heq, hperm⟩ := hcomp
  exact ⟨order, hperm.symm, heq⟩

theorem Source.settles (h : Source schema f root (f.preorder root))
    (hfree : f.parent? root = none) (space : String) : Settles schema space f root := by
  refine ⟨_, exportTree_eq h.sound h.built h.faithful h.exists_root h.covers, ?_⟩
  intro records hperm
  -- The rearranged records are those of the same tree in another order.
  obtain ⟨order, horder, rfl⟩ := exists_order hperm
  have hsource : Source schema f root order := { h with perm := horder }
  obtain ⟨g, himport, hg⟩ := hsource.exists_importTree space _
  exact ⟨g, _, himport, hg.exportTree_eq hsource hfree space⟩

/-! ### Main results -/

/-- The language of a metamodel covers every tree over it. -/
theorem exists_covering {m : Metamodel} (hm : m.Built) (hf : Forest.Reachable m f)
    (root : NodeId) (key version : String) :
    ∃ l, Language.ofMetamodel key version m = .ok l ∧ l.Built ∧ Schema.Covers l f root := by
  obtain ⟨l, hl, hbuilt, hall⟩ := Language.exists_ofMetamodel hm key version
  refine ⟨l, hl, hbuilt, fun node hnode t ht => ?_⟩
  rw [hf.metamodel_eq] at ht
  obtain ⟨htype, hproperties⟩ := hall (f.typeOf node) t ht
  exact ⟨htype, fun p hp _ => hproperties p hp⟩

/-- **Writing a tree and reading it back rebuilds it.**  This holds of every tree that
edits lead to, whether its root is free or not, and under every language or
registry that has pointers for the types of its nodes and for their public
properties.  The language made from the metamodel always does. -/
theorem tree_rebuilds {m : Metamodel} (hm : m.Built) {f : Forest} (hf : Forest.Reachable m f)
    {root : NodeId} (hroot : (f.get? root).isSome) (space : String) :
    (∀ l : Language, l.Built → Schema.Covers l f root → Rebuilds l space f root) ∧
    (∀ r : Registry, r.Built → Schema.Covers r f root → Rebuilds r space f root) ∧
    ∀ key version, ∃ l, Language.ofMetamodel key version m = .ok l ∧ l.Built ∧
      Schema.Covers l f root := by
  have hbuilt : f.metamodel.Built := hf.metamodel_eq ▸ hm
  refine ⟨?_, ?_, exists_covering hm hf root⟩
  · intro l hl hcovers
    exact (source_preorder hf.sound hbuilt hl.faithful hroot hcovers).rebuilds space
  · intro r hr hcovers
    exact (source_preorder hf.sound hbuilt hr.faithful hroot hcovers).rebuilds space

/-- A type with properties of all kinds, one of them hidden and one derived. -/
def item : TypeDeclaration where
  name := "Item"
  properties := [{ name := "size", kind := .value, dataType := some .float },
    { name := "body", kind := .single }, { name := "parts", kind := .multiple },
    { name := "link", kind := .reference },
    { name := "shadow", kind := .single, visibility := .hidden },
    { name := "total", kind := .value, derived := true }]

def itemModel : Metamodel := Metamodel.grow [.type item] { name := "items" }

theorem itemModel_built : itemModel.Built := (Metamodel.Built.empty "items").grow _

/-- An item with a NaN and a list, one of its parts with an ignored and one with an
absent list, references up, across and out of the tree, and a hidden item. -/
def itemForest : Forest :=
  Forest.run [.create "Item", .create "Item", .create "Item", .create "Item", .create "Item",
    .setValue ⟨0⟩ "size" (.float ⟨true, Binary64.quietNaN, Binary64.quietNaN_lt⟩),
    .append ⟨0⟩ "parts" ⟨2⟩, .append ⟨0⟩ "parts" ⟨1⟩, .setChild ⟨2⟩ "body" (some ⟨3⟩),
    .ignore ⟨1⟩ "parts", .clear ⟨2⟩ "parts", .setChild ⟨2⟩ "shadow" (some ⟨4⟩),
    .setReference ⟨3⟩ "link" (some ⟨"up", some ⟨2⟩⟩),
    .setReference ⟨2⟩ "link" (some ⟨"across", some ⟨1⟩⟩),
    .setReference ⟨1⟩ "link" (some ⟨"out", some ⟨4⟩⟩)] { metamodel := itemModel }

def itemLanguage : Language :=
  ((Language.ofMetamodel "items" "1" itemModel).toOption).getD { key := "items", version := "1" }

theorem itemLanguage_built : itemLanguage.Built := by
  obtain ⟨l, hl, hbuilt, -⟩ := Language.exists_ofMetamodel itemModel_built "items" "1"
  rw [itemLanguage, hl]
  exact hbuilt

def itemRegistry : Registry := ⟨[itemLanguage]⟩

theorem itemRegistry_built : itemRegistry.Built :=
  .register .empty itemLanguage_built rfl

theorem itemForest_reachable : Forest.Reachable itemModel itemForest := ⟨_, rfl⟩

theorem tree_rebuilds_items :
    itemForest.parent? ⟨2⟩ = some ⟨0⟩ ∧ Rebuilds itemLanguage "a" itemForest ⟨2⟩ ∧
      Rebuilds itemRegistry "a" itemForest ⟨2⟩ := by
  have hroot : (itemForest.get? ⟨2⟩).isSome := by decide +kernel
  have h := tree_rebuilds itemModel_built itemForest_reachable hroot "a"
  exact ⟨by decide +kernel, h.1 _ itemLanguage_built (by decide +kernel),
    h.2.1 _ itemRegistry_built (by decide +kernel)⟩

/-- **Reading does not depend on the order of the records, and writing again gives the
same document.**  This holds of every free tree that edits lead to, under every
language or registry that has pointers for what occurs in it. -/
theorem tree_settles {m : Metamodel} (hm : m.Built) {f : Forest} (hf : Forest.Reachable m f)
    {root : NodeId} (hroot : (f.get? root).isSome) (hfree : f.parent? root = none)
    (space : String) :
    (∀ l : Language, l.Built → Schema.Covers l f root → Settles l space f root) ∧
    ∀ r : Registry, r.Built → Schema.Covers r f root → Settles r space f root := by
  have hbuilt : f.metamodel.Built := hf.metamodel_eq ▸ hm
  constructor
  · intro l hl hcovers
    exact (source_preorder hf.sound hbuilt hl.faithful hroot hcovers).settles hfree space
  · intro r hr hcovers
    exact (source_preorder hf.sound hbuilt hr.faithful hroot hcovers).settles hfree space

theorem tree_settles_items :
    Settles itemRegistry "a" itemForest ⟨0⟩ ∧
    ∃ d g root, exportTree itemLanguage "a" itemForest ⟨0⟩ = .ok d ∧
      importTree itemLanguage itemModel { d with records := d.records.reverse } = .ok (g, root) ∧
      exportTree itemLanguage "a" g root = .ok d := by
  have hroot : (itemForest.get? ⟨0⟩).isSome := by decide +kernel
  have hfree : itemForest.parent? ⟨0⟩ = none := by decide +kernel
  have h := tree_settles itemModel_built itemForest_reachable hroot hfree "a"
  obtain ⟨d, hexport, hread⟩ := h.1 _ itemLanguage_built (by decide +kernel)
  obtain ⟨g, root, himport, hagain⟩ := hread d.records.reverse (List.reverse_perm _).symm
  rw [itemForest_reachable.metamodel_eq] at himport
  exact ⟨h.2 _ itemRegistry_built (by decide +kernel), d, g, root, hexport, himport, hagain⟩

end Document

end TypedForest
