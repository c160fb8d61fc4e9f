import TypedForest.Proofs.Comparison.Passing

/-!
# Recognizing a tree that was read back

A free tree is written, read back, and the outcome compared with the tree.  A document
forgets some differences: between an absent list and an empty one, between a reference
out of the tree and an unresolved one, and between a value in a raw attribute and its
text.  And a NaN differs even from itself.  This module says which trees are recognized
all the same.  Nothing else can go wrong, and each of these alone makes the comparison
fail, so the answer is exact.

The answer is first given for a single facet and its image.  References need some care
there: their targets are compared by description, and the descriptions are made in two
different forests.  From facets it goes to nodes and, by induction on the budget of the
comparison, to the tree.

## Main Definitions

* `Document.KeepsShape`: a document keeps what a containment or reference holds.
* `Document.KeepsValue`: it keeps what an attribute holds.
* `Document.Recognized`: which comparisons of the tree with what is read back pass.

## Main Results

* `Copy.slotsAgree_image_iff`: which facets agree with their images.
* `Copy.level_iff`: one level of comparing a tree with its copy.
* `Copy.passes_iff`: all levels.
* `Document.tree_recognized`: which trees are recognized.
-/

namespace TypedForest

/-- The value of an attribute. -/
def Slot.value? : Slot → Option Value
  | .value x => some x
  | _ => none

namespace Document

/-- The list is there and the reference, if it leads anywhere, does not leave the tree. -/
def KeepsShape (walk : List NodeId) (facet : Facet) : Prop :=
  facet.slot ≠ .children none ∧ ∀ t ∈ facet.slot.target?, t ∈ walk

/-- The value is no NaN, and an attribute that is declared raw, or has no declared type,
holds null or raw text. -/
def KeepsValue (facet : Facet) : Prop :=
  ∀ x ∈ facet.slot.value?, x.isNaN = false ∧
    (facet.property.valueType = .raw → x.isNull = true ∨ x.isRaw = true)

instance (walk : List NodeId) (facet : Facet) : Decidable (KeepsShape walk facet) :=
  inferInstanceAs (Decidable (_ ∧ _))

instance (facet : Facet) : Decidable (KeepsValue facet) :=
  inferInstanceAs (Decidable (∀ x ∈ facet.slot.value?, _))

/-- The comparison sees no difference between the facet and its image. -/
def Kept (c : Comparison) (walk : List NodeId) (facet : Facet) : Prop :=
  KeepsShape walk facet ∧ (c.lightweight = true ∨ KeepsValue facet)

/-- Writing the tree and reading it back succeed.  The outcome is recognized by wire
forms exactly if all shapes are kept, and by values exactly if the values are kept, too. -/
def Recognized {σ : Type} [Schema σ] (schema : σ) (space : String) (f : Forest) (root : NodeId) :
    Prop :=
  ∃ d g root', exportTree schema space f root = .ok d ∧
    importTree schema f.metamodel d = .ok (g, root') ∧
    (Comparison.trees { lightweight := true } f root g root' = .ok () ↔
      ∀ v ∈ f.preorder root, ∀ facet ∈ f.visible v, KeepsShape (f.preorder root) facet) ∧
    (Comparison.trees {} f root g root' = .ok () ↔
      ∀ v ∈ f.preorder root, ∀ facet ∈ f.visible v,
        KeepsShape (f.preorder root) facet ∧ KeepsValue facet)

variable {σ : Type} [Schema σ] {schema : σ} {f g : Forest} {root : NodeId} {order : List NodeId}
  {c : Comparison} {v : NodeId} {facet : Facet}

namespace Copy

/-! ### Facets and their images -/

/-- In the copy of a free tree, nodes are described as in the tree. -/
theorem label_eq (hg : Copy f root order g) (h : Source schema f root order)
    (hfree : f.parent? root = none) (hv : v ∈ order) :
    g.label (number order v) = f.label v := by
  obtain ⟨n, t, hn, -⟩ := h.exists_node hv
  simp only [Forest.label, hn, hg.node v hv n hn, Forest.pathText, hg.path_eq h hfree hv]

theorem slotsAgree_reread_iff {p : Property} {x : Value} (h : f.Accepts p (.value x)) :
    c.SlotsAgree f g (.value x) (image order ⟨p, .value x⟩) ↔
      c.lightweight = true ∨ KeepsValue ⟨p, .value x⟩ := by
  obtain ⟨w, hread, -, hwire⟩ := Forest.exists_reread (h.value_ok x rfl)
  have hconforms := Forest.conforms_of_checkValue (h.value_ok x rfl)
  have himage : image order ⟨p, .value x⟩ = .value w := by simp [image, hread]
  have hkeeps : KeepsValue ⟨p, .value x⟩ ↔ x.equal w = true := by
    rw [Value.equal_reread_iff hconforms hread]
    simp [KeepsValue, Slot.value?]
  rw [himage, Comparison.slotsAgree_value_iff, Comparison.sameValue, hkeeps]
  cases c.lightweight <;> simp [hwire]

theorem slotsAgree_reference_iff (hg : Copy f root order g) (h : Source schema f root order)
    (hfree : f.parent? root = none) {r : Option NamedRef} :
    c.SlotsAgree f g (.reference r) (.reference (r.map (imageRef order))) ↔
      ∀ t ∈ Slot.target? (.reference r), t ∈ order := by
  cases r with
  | none => simp [Comparison.SlotsAgree, Slot.target?]
  | some q =>
      obtain ⟨name, target⟩ := q
      cases target with
      | none => simp [Comparison.SlotsAgree, Slot.target?, imageRef]
      | some t =>
          by_cases ht : t ∈ order
          · simp [Comparison.SlotsAgree, Slot.target?, imageRef, Option.filter, ht,
              hg.label_eq h hfree ht]
          · simp [Comparison.SlotsAgree, Slot.target?, imageRef, Option.filter, ht]

/-- **Which facets agree with their images.** -/
theorem slotsAgree_image_iff (hg : Copy f root order g) (h : Source schema f root order)
    (hfree : f.parent? root = none) (hv : v ∈ order) (hfacet : facet ∈ f.visible v) :
    facet.slot = .ignored ∨ c.SlotsAgree f g facet.slot (image order facet) ↔
      Kept c order facet := by
  have haccepts := h.accepts hv hfacet
  obtain ⟨p, slot⟩ := facet
  cases slot with
  | value x => simp [slotsAgree_reread_iff haccepts, Kept, KeepsShape, Slot.target?]
  | child d => simp [Comparison.SlotsAgree, image, Kept, KeepsShape, KeepsValue, Slot.target?,
      Slot.value?]
  | children cs =>
      cases cs <;> simp [Comparison.SlotsAgree, image, Kept, KeepsShape, KeepsValue, Slot.target?,
        Slot.value?]
  | ignored => simp [Kept, KeepsShape, KeepsValue, Slot.target?, Slot.value?]
  | reference r =>
      have hreference := hg.slotsAgree_reference_iff (c := c) h hfree (r := r)
      simp [image, hreference, Kept, KeepsShape, KeepsValue, Slot.value?]

/-! ### Nodes and their copies -/

/-- The counterpart of a facet in the copy is its image. -/
theorem find?_visible (hg : Copy f root order g) (h : Source schema f root order)
    (hv : v ∈ order) (hfacet : facet ∈ f.visible v) :
    (g.visible (number order v)).find? (fun y => y.property.name == facet.property.name) =
      some (imageFacet order facet) := by
  rw [hg.visible_eq h hv, List.find?_map]
  have hfind := find?_of_nodup_key (fun y : Facet => y.property.name) (h.nodup_visible hv) hfacet
  exact congrArg (Option.map (imageFacet order)) hfind

/-- Comparing a facet with its image compares what they hold and then the nodes in them. -/
theorem slotsPass_image_iff (hg : Copy f root order g) (h : Source schema f root order)
    (hfree : f.parent? root = none) (hv : v ∈ order) (hfacet : facet ∈ f.visible v)
    {P : NodeId → NodeId → Prop} :
    c.SlotsPass f g P facet.slot (image order facet) ↔
      Kept c order facet ∧ ∀ x ∈ facet.slot.owned, P x (number order x) := by
  rw [← hg.slotsAgree_image_iff h hfree hv hfacet, Comparison.SlotsPass, owned_image,
    List.forall₂_map_right_iff, List.forall₂_same]
  constructor
  · rintro (hignored | ⟨hagree, hnodes⟩)
    · exact ⟨.inl hignored, by simp [hignored, Slot.owned]⟩
    · exact ⟨.inr hagree, hnodes⟩
  · rintro ⟨hignored | hagree, hnodes⟩
    · exact .inl hignored
    · exact .inr ⟨hagree, hnodes⟩

/-- **One level of comparing a tree with its copy.** -/
theorem level_iff (hg : Copy f root order g) (h : Source schema f root order)
    (hfree : f.parent? root = none) (hc : c.positions = false) (hv : v ∈ order)
    {P : NodeId → NodeId → Prop} :
    c.Level f g P v (number order v) ↔
      (∀ facet ∈ f.visible v, Kept c order facet) ∧
        ∀ x ∈ f.children v, P x (number order x) := by
  obtain ⟨n, -, hn, -⟩ := h.exists_node hv
  have hn' := hg.node v hv n hn
  have hvisible := h.sound.publicFacets_eq_visible (Option.isSome_of_eq_some hn)
  have hvisible' := hg.sound.publicFacets_eq_visible (hg.isSome_get? h hv)
  have hpass : ∀ facet ∈ f.visible v,
      c.FacetPasses f g P (g.visible (number order v)) facet ↔
        Kept c order facet ∧ ∀ x ∈ facet.slot.owned, P x (number order x) := by
    intro facet hfacet
    rw [← hg.slotsPass_image_iff h hfree hv hfacet, Comparison.FacetPasses,
      hg.find?_visible h hv hfacet]
    simp [imageFacet]
  have hchildren : (∀ x ∈ f.children v, P x (number order x)) ↔
      ∀ facet ∈ f.visible v, ∀ x ∈ facet.slot.owned, P x (number order x) := by
    rw [f.children_eq_flatMap, List.forall_mem_flatMap]
  rw [hchildren, ← forall₂_and, ← forall₂_congr hpass]
  constructor
  · rintro ⟨-, es, as, hes, has, hfacets⟩
    obtain rfl := Except.ok.inj (hvisible.symm.trans hes)
    obtain rfl := Except.ok.inj (hvisible'.symm.trans has)
    exact hfacets
  · intro hfacets
    exact ⟨⟨n, _, hn, hn', rfl, by simp [hc]⟩, _, _, hvisible, hvisible', hfacets⟩

/-- **All levels of comparing a tree with its copy.**  With a budget for the height of the
tree, the comparison passes exactly if all facets are kept. -/
theorem passes_iff (hg : Copy f root order g) (h : Source schema f root order)
    (hfree : f.parent? root = none) (hc : c.positions = false) {budget : Nat}
    (hbudget : f.size < budget + f.depth v) (hv : v ∈ order) :
    c.Passes f g budget v (number order v) ↔
      ∀ u ∈ f.preorder v, ∀ facet ∈ f.visible u, Kept c order facet := by
  have hexists := h.sound.exists_of_mem_preorder (h.mem_preorder hv)
  induction budget generalizing v with
  | zero =>
      have hdepth := h.sound.wellFormed.depth_lt_size hexists
      omega
  | succ budget ih =>
      have hbelow : ∀ x ∈ f.children v, c.Passes f g budget x (number order x) ↔
          ∀ u ∈ f.preorder x, ∀ facet ∈ f.visible u, Kept c order facet := by
        intro x hx
        have hdepth := h.sound.wellFormed.depth_of_parent (h.sound.parent?_of_mem_children hx)
        have hmem := h.sound.mem_preorder_of_mem_children (h.mem_preorder hv) hx
        exact ih (by omega) (h.perm.mem_iff.mp hmem) (h.sound.isSome_of_mem_children hx)
      rw [Comparison.Passes, hg.level_iff h hfree hc hv, forall₂_congr hbelow]
      simp only [h.sound.preorder_eq hexists, Forest.below, List.forall_mem_cons,
        List.forall_mem_flatMap]

end Copy

/-! ### Trees -/

theorem Source.recognized (h : Source schema f root (f.preorder root))
    (hfree : f.parent? root = none) (space : String) : Recognized schema space f root := by
  obtain ⟨g, himport, hg⟩ := h.exists_importTree space _
  have hpasses : ∀ c : Comparison, c.positions = false →
      (c.trees f root g (number (f.preorder root) root) = .ok () ↔
        ∀ v ∈ f.preorder root, ∀ facet ∈ f.visible v, Kept c (f.preorder root) facet) := by
    intro c hc
    rw [Comparison.trees, Comparison.nodes_eq_ok_iff_passes]
    exact hg.passes_iff h hfree hc (by omega) h.mem_root
  refine ⟨_, g, _, exportTree_eq h.sound h.built h.faithful h.exists_root h.covers, himport, ?_, ?_⟩
  · rw [hpasses _ rfl]
    simp [Kept]
  · rw [hpasses _ rfl]
    simp [Kept]

/-- **Which trees are recognized.**  A free tree that edits lead to is written, read back
and compared with the outcome, under any language or registry that has pointers for what
occurs in it.  By wire forms it is recognized exactly if no public list is absent and all
public references that lead anywhere lead into the tree.  By values it is recognized
exactly if, in addition, no public attribute is a NaN, and the raw ones hold null or raw
text. -/
theorem tree_recognized {m : Metamodel} (hm : m.Built) {f : Forest} (hf : Forest.Reachable m f)
    {root : NodeId} (hroot : (f.get? root).isSome) (hfree : f.parent? root = none)
    (space : String) :
    (∀ l : Language, l.Built → Schema.Covers l f root → Recognized l space f root) ∧
    ∀ r : Registry, r.Built → Schema.Covers r f root → Recognized r space f root := by
  have hbuilt : f.metamodel.Built := hf.metamodel_eq ▸ hm
  constructor
  · intro l hl hcovers
    exact (source_preorder hf.sound hbuilt hl.faithful hroot hcovers).recognized hfree space
  · intro r hr hcovers
    exact (source_preorder hf.sound hbuilt hr.faithful hroot hcovers).recognized hfree space

/-- Notes have a text without a declared type. -/
def note : TypeDeclaration where
  name := "Note"
  properties := [{ name := "text", kind := .value },
    { name := "size", kind := .value, dataType := some .float },
    { name := "parts", kind := .multiple }, { name := "link", kind := .reference }]

def noteModel : Metamodel := Metamodel.grow [.type note] { name := "notes" }

theorem noteModel_built : noteModel.Built := (Metamodel.Built.empty "notes").grow _

/-- Free trees: one with an ignored list, a link up and a negative zero; one with a
number for its text; one with a NaN; one that links to another tree; one with an absent
list. -/
def noteForest : Forest :=
  Forest.run [.create "Note", .create "Note", .create "Note", .create "Note", .create "Note",
    .create "Note", .append ⟨0⟩ "parts" ⟨1⟩, .ignore ⟨1⟩ "parts",
    .setReference ⟨1⟩ "link" (some ⟨"up", some ⟨0⟩⟩), .setValue ⟨0⟩ "text" (.raw "7"),
    .setValue ⟨1⟩ "size" (.float (.ofBits 0x8000000000000000)), .setValue ⟨2⟩ "text" (.int 7),
    .setValue ⟨3⟩ "size" (.float ⟨true, Binary64.quietNaN, Binary64.quietNaN_lt⟩),
    .setReference ⟨4⟩ "link" (some ⟨"out", some ⟨0⟩⟩), .clear ⟨5⟩ "parts"]
    { metamodel := noteModel }

theorem tree_recognized_notes :
    ∃ l, Language.ofMetamodel "notes" "1" noteModel = .ok l ∧
      ∀ root ∈ [0, 2, 3, 4, 5].map NodeId.mk, ∃ d g root',
        exportTree l "a" noteForest root = .ok d ∧
        importTree l noteForest.metamodel d = .ok (g, root') ∧
        (Comparison.trees {} noteForest root g root' = .ok () ↔ root = ⟨0⟩) ∧
        (Comparison.trees { lightweight := true } noteForest root g root' = .ok () ↔
          root.index ≤ 3) := by
  have hreachable : Forest.Reachable noteModel noteForest := ⟨_, rfl⟩
  have hfree : ∀ root ∈ [0, 2, 3, 4, 5].map NodeId.mk,
      (noteForest.get? root).isSome ∧ noteForest.parent? root = none := by decide +kernel
  have hshape : ∀ root ∈ [0, 2, 3, 4, 5].map NodeId.mk,
      (∀ v ∈ noteForest.preorder root, ∀ facet ∈ noteForest.visible v,
        KeepsShape (noteForest.preorder root) facet) ↔ root.index ≤ 3 := by decide +kernel
  have hvalue : ∀ root ∈ [0, 2, 3, 4, 5].map NodeId.mk,
      (∀ v ∈ noteForest.preorder root, ∀ facet ∈ noteForest.visible v,
        KeepsShape (noteForest.preorder root) facet ∧ KeepsValue facet) ↔ root = ⟨0⟩ := by
    decide +kernel
  obtain ⟨l, hl, hbuilt, -⟩ := exists_covering noteModel_built hreachable ⟨0⟩ "notes" "1"
  refine ⟨l, hl, fun root hroot => ?_⟩
  obtain ⟨l', hl', -, hcovers⟩ := exists_covering noteModel_built hreachable root "notes" "1"
  obtain rfl := Except.ok.inj (hl.symm.trans hl')
  obtain ⟨d, g, root', hexport, himport, hlight, hstrict⟩ := (tree_recognized noteModel_built
    hreachable (hfree root hroot).1 (hfree root hroot).2 "a").1 l hbuilt hcovers
  exact ⟨d, g, root', hexport, himport, hstrict.trans (hvalue root hroot),
    hlight.trans (hshape root hroot)⟩

end Document

end TypedForest
