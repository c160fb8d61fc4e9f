import TypedForest.Proofs.Document.Export

/-!
# Documents of subtrees

The nodes of a subtree come in one piece in the traversal of the whole tree, and
identifiers are paths from the topmost node, wherever the traversal starts.  So the
document of a subtree can be read off the document of the whole: it is a block of its
records, cut off from what is around it.

## Main Definitions

* `Document.excerpt`: a block of records as a document of its own.

## Main Results

* `Sound.preorder_infix`: the nodes of a subtree come in one piece.
* `recordFor_subtree`: what becomes of a record in the document of a subtree.
* `exportTree_subtree`: the document of a subtree is an excerpt.
-/

namespace TypedForest

/-! ### Subtrees in a traversal -/

namespace Forest

variable {f : Forest} {root q v : NodeId}

/-- **The nodes of a subtree come in one piece.** -/
theorem Sound.preorder_infix (hf : f.Sound) (h : q ∈ f.preorder root) :
    f.preorder q <:+: f.preorder root := by
  refine hf.up_induction (fun p hp ih h => ?_) root (isSome_root h) h
  rcases (hf.mem_preorder hp).mp h with rfl | ⟨c, hc, hq⟩
  · exact List.infix_rfl
  · rw [hf.preorder_eq hp]
    exact (ih c hc hq).trans
      ((List.infix_flatMap_of_mem hc f.preorder).trans (List.suffix_cons p _).isInfix)

/-- A node of a subtree, other than its root, has its parent there and is not the root
of the whole tree either. -/
theorem Sound.exists_parent_of_ne (hf : f.Sound) (hq : q ∈ f.preorder root)
    (hv : v ∈ f.preorder q) (hne : v ≠ q) :
    v ≠ root ∧ ∃ p ∈ f.preorder q, f.parent? v = some p := by
  obtain rfl | ⟨p, hp, hchild⟩ := hf.exists_parent_of_mem_preorder hv
  · exact absurd rfl hne
  · have hup := hf.parent?_of_mem_children hchild
    refine ⟨?_, p, hp, hup⟩
    -- Otherwise the parent of the root would be below it.
    rintro rfl
    have habove := hf.above_of_mem_preorder ((hf.preorder_infix hq).subset hp)
    exact hf.wellFormed.acyclic v (.head' hup habove)

end Forest

namespace Document

/-- A target as far as it is one of the given identifiers. -/
def Target.restrict (ids : List String) (t : Target) : Target :=
  { t with id := t.id.filter ids.contains }

def ReferenceEntry.restrict (ids : List String) (e : ReferenceEntry) : ReferenceEntry :=
  { e with targets := e.targets.map (Target.restrict ids) }

/-- A record whose references lead to the given identifiers only. -/
def Record.restrict (ids : List String) (r : Record) : Record :=
  { r with references := r.references.map (ReferenceEntry.restrict ids) }

/-- A block of records as a document of its own: the first has no parent, and
references that lead out of the block have no targets. -/
def excerpt (block : List Record) : Document where
  languages := firstUses (block.map Record.language)
  records := (block.map (Record.restrict (block.map Record.id))).modifyHead fun r =>
    { r with parent := none }

/-! ### Records of subtrees -/

variable {σ : Type} [Schema σ] {schema : σ} {space : String} {f : Forest} {root q v : NodeId}

/-- The names in a subtree are those of the whole tree that occur in it. -/
theorem treeName?_subtree (hf : f.Sound) (hm : f.metamodel.Built) (hq : q ∈ f.preorder root)
    (c : NodeId) :
    f.treeName? space q c = (f.treeName? space root c).filter
      ((f.preorder q).map (f.structuralId space)).contains := by
  have hsubset := (hf.preorder_infix hq).subset
  by_cases hc : c ∈ f.preorder root
  · rw [treeName?_of_mem hc, Option.filter_some, Forest.treeName?]
    -- Identifiers determine the nodes of the whole tree.
    have hmem : ((f.preorder q).map (f.structuralId space)).contains (f.structuralId space c) =
        true ↔ c ∈ f.preorder q := by
      rw [List.contains_iff_mem, List.mem_map]
      constructor
      · rintro ⟨x, hx, hid⟩
        have htop : f.topmost x = f.topmost c := by
          rw [hf.topmost_of_mem_preorder (hsubset hx), hf.topmost_of_mem_preorder hc]
        exact hf.structuralId_injective hm htop hid ▸ hx
      · exact fun h => ⟨c, h, rfl⟩
    simp only [hmem]
  · rw [Forest.treeName?, Forest.treeName?, if_neg hc, if_neg fun h => hc (hsubset h)]
    rfl

/-- The entry of a containment depends on the names of the children only. -/
theorem asContainment?_congr {name? name?' : NodeId → Option String} {type : String}
    {facet : Facet} (h : ∀ c ∈ facet.slot.owned, name? c = name?' c) :
    asContainment? schema name? type facet = asContainment? schema name?' type facet := by
  rw [asContainment?, asContainment?, List.filterMap_congr h]

/-- With fewer names, fewer references have targets. -/
theorem asReference?_filter {name? name?' : NodeId → Option String} {ids : List String}
    (h : ∀ c, name?' c = (name? c).filter ids.contains) (type : String) (facet : Facet) :
    asReference? schema name?' type facet =
      (asReference? schema name? type facet).map (ReferenceEntry.restrict ids) := by
  obtain ⟨p, slot⟩ := facet
  cases slot with
  | reference r =>
      have htarget : ∀ t : NamedRef, t.target.bind name?' =
          (t.target.bind name?).filter ids.contains := by
        rintro ⟨name, target⟩
        cases target with
        | none => rfl
        | some c => exact h c
      simp [asReference?, ReferenceEntry.restrict, Target.restrict, htarget]
  | value _ => rfl
  | child _ => rfl
  | children _ => rfl
  | ignored => rfl

/-- **What becomes of a record in the document of a subtree.**  It loses the targets of
references that lead out, and its parent if it is the root. -/
theorem recordFor_subtree (hf : f.Sound) (hm : f.metamodel.Built) (hq : q ∈ f.preorder root)
    (hv : v ∈ f.preorder q) :
    recordFor schema (f.treeName? space q) f q v =
      { (recordFor schema (f.treeName? space root) f root v).restrict
          ((f.preorder q).map (f.structuralId space)) with
        parent := if v = q then none
          else (recordFor schema (f.treeName? space root) f root v).parent } := by
  have hsubset := (hf.preorder_infix hq).subset
  have hid : f.treeName? space q v = f.treeName? space root v := by
    rw [treeName?_of_mem hv, treeName?_of_mem (hsubset hv)]
  have hchildren : (f.visible v).filterMap
        (asContainment? schema (f.treeName? space q) (f.typeOf v)) =
      (f.visible v).filterMap
        (asContainment? schema (f.treeName? space root) (f.typeOf v)) := by
    refine List.filterMap_congr fun facet hfacet => asContainment?_congr fun c hc => ?_
    have hmem := hf.mem_preorder_of_mem_children hv (Forest.mem_children_of_mem_owned hfacet hc)
    rw [treeName?_of_mem hmem, treeName?_of_mem (hsubset hmem)]
  have hreferences : (f.visible v).filterMap
        (asReference? schema (f.treeName? space q) (f.typeOf v)) =
      ((f.visible v).filterMap (asReference? schema (f.treeName? space root) (f.typeOf v))).map
        (ReferenceEntry.restrict ((f.preorder q).map (f.structuralId space))) := by
    rw [List.map_filterMap]
    exact List.filterMap_congr fun facet _ =>
      asReference?_filter (treeName?_subtree hf hm hq) (f.typeOf v) facet
  have hparent : (if v = q then none else (f.parent? v).bind (f.treeName? space q)) =
      if v = q then none
        else if v = root then none else (f.parent? v).bind (f.treeName? space root) := by
    split
    · rfl
    case isFalse hne =>
      obtain ⟨hroot, p, hp, hup⟩ := hf.exists_parent_of_ne hq hv hne
      rw [if_neg hroot, hup, Option.bind_some, Option.bind_some, treeName?_of_mem hp,
        treeName?_of_mem (hsubset hp)]
  simp only [recordFor, Record.restrict, hid, hchildren, hreferences, hparent]

/-- **The document of a subtree, from the records of the whole tree.** -/
theorem ofTree_subtree (hf : f.Sound) (hm : f.metamodel.Built) (hq : q ∈ f.preorder root) :
    ofTree schema space f q (f.preorder q) =
      excerpt ((f.preorder q).map (recordFor schema (f.treeName? space root) f root)) := by
  have hsubset := (hf.preorder_infix hq).subset
  have hexists := hf.exists_of_mem_preorder hq
  have hids : ((f.preorder q).map (recordFor schema (f.treeName? space root) f root)).map
      Record.id = (f.preorder q).map (f.structuralId space) := by
    rw [List.map_map]
    refine List.map_congr_left fun v hv => ?_
    simp [recordFor, treeName?_of_mem (hsubset hv)]
  -- The root is listed once, at the head: only there a parent is left out.
  have hhead := hf.preorder_eq hexists
  have hnodup := hf.nodup_preorder q
  have hrecord : ∀ v ∈ f.preorder q, recordFor schema (f.treeName? space q) f q v = _ :=
    fun v hv => recordFor_subtree hf hm hq hv
  rw [ofTree, excerpt, hids]
  congr 1
  · rw [List.map_map]
    rfl
  · rw [List.map_map]
    generalize (f.preorder q).map (f.structuralId space) = ids at hrecord ⊢
    rw [hhead] at hnodup hrecord ⊢
    obtain ⟨hroot, -⟩ := List.nodup_cons.mp hnodup
    rw [List.map_cons, List.map_cons, List.modifyHead_cons]
    congr 1
    · rw [hrecord q List.mem_cons_self, if_pos rfl]
      rfl
    · refine List.map_congr_left fun v hv => ?_
      have hne : v ≠ q := fun h => hroot (h ▸ hv)
      rw [hrecord v (List.mem_cons_of_mem _ hv), if_neg hne]
      rfl

/-- **Exporting a subtree is cutting it out of the export of the whole.**  If a tree of
a forest that edits lead to is exported, so is the tree below each of its nodes.  The
nodes of that tree come in one piece in the traversal of the whole, hence their records
do so in its document; and these records, cut off from what is around them, are the
document of the subtree. -/
theorem exportTree_subtree {m : Metamodel} (hm : m.Built) {f : Forest}
    (hf : Forest.Reachable m f) {σ : Type} [Schema σ] (schema : σ) (space : String)
    {root q : NodeId} (hq : q ∈ f.preorder root) {d : Document}
    (hd : exportTree schema space f root = .ok d) :
    ∃ record before after, Depicts schema space f root record d ∧
      f.preorder root = before ++ f.preorder q ++ after ∧
      d.records = before.map record ++ (f.preorder q).map record ++ after.map record ∧
      exportTree schema space f q = .ok (excerpt ((f.preorder q).map record)) := by
  have hbuilt : f.metamodel.Built := hf.metamodel_eq ▸ hm
  obtain ⟨hroot, hresolves⟩ := (exists_exportTree_iff hf.sound hbuilt).mp ⟨d, hd⟩
  obtain rfl : ofTree schema space f root (f.preorder root) = d := Except.ok.inj
    ((exportTree_of_resolves hf.sound hbuilt hroot hresolves).symm.trans hd)
  obtain ⟨before, after, hsplit⟩ := hf.sound.preorder_infix hq
  have hblock : Schema.Resolves schema f q := fun v hv =>
    hresolves v ((hf.sound.preorder_infix hq).subset hv)
  have hexport : exportTree schema space f q = .ok (ofTree schema space f q (f.preorder q)) :=
    exportTree_of_resolves hf.sound hbuilt (hf.sound.exists_of_mem_preorder hq) hblock
  have hdepicts := depicts_ofTree hf.sound hresolves space
  refine ⟨_, before, after, hdepicts, hsplit.symm, ?_, ?_⟩
  · rw [hdepicts.records_eq, ← hsplit, List.map_append, List.map_append]
  · rw [hexport, ofTree_subtree hf.sound hbuilt hq]

/-- One part of the item is in the middle of its traversal, has a reference across and
holds an item with a reference up. -/
theorem exportTree_subtree_items :
    itemForest.preorder ⟨0⟩ = [⟨0⟩] ++ itemForest.preorder ⟨2⟩ ++ [⟨1⟩] ∧
    itemForest.preorder ⟨2⟩ = [⟨2⟩, ⟨3⟩] ∧
    ∃ d record, exportTree itemLanguage "a" itemForest ⟨0⟩ = .ok d ∧
      Depicts itemLanguage "a" itemForest ⟨0⟩ record d ∧
      exportTree itemLanguage "a" itemForest ⟨2⟩ =
        .ok (excerpt ((itemForest.preorder ⟨2⟩).map record)) := by
  have hresolves : Schema.Resolves itemLanguage itemForest ⟨0⟩ :=
    resolves_of_covers itemForest_reachable.sound itemLanguage_built.faithful (by decide +kernel)
  have hbuilt : itemForest.metamodel.Built :=
    itemForest_reachable.metamodel_eq ▸ itemModel_built
  have hd : exportTree itemLanguage "a" itemForest ⟨0⟩ = .ok _ :=
    exportTree_of_resolves itemForest_reachable.sound hbuilt (by decide +kernel) hresolves
  obtain ⟨record, before, after, hdepicts, -, -, hexport⟩ :=
    exportTree_subtree itemModel_built itemForest_reachable itemLanguage "a" (q := ⟨2⟩)
      (by decide +kernel) hd
  exact ⟨by decide +kernel, by decide +kernel, _, record, hd, hdepicts, hexport⟩

end Document

end TypedForest
