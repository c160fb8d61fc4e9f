import Mathlib.Data.List.Forall2
import Mathlib.Data.List.Induction
import TypedForest.Proofs.Document.RoundTrip

/-!
# Exported documents are trees

A document says where a node belongs in two places: the record of the node names a
parent, and the record of the parent lists the node among its children.  In an
exported document the two agree, and together they make one tree of all records,
whatever the schema leaves out.

The argument rests on one fact about traversals: the children of the nodes of a tree,
taken together, are its nodes without the root (`Sound.perm_flatMap_children`).  So
what all records list, taken together, are the identifiers of all records but the
first, each once.

## Main Definitions

* `Document.IsTree`: parents and lists of children make one tree of the records.
* `Document.ListsLanguages`: the languages in use, in the order of first use.
* `Document.Depicts`: the records are those of the nodes of a tree.

## Main Results

* `exists_exportTree_iff`: when exporting succeeds.
* `Depicts.perm_listed`: what all records list, taken together.
* `exportTree_isTree`: exported documents are trees.
-/

namespace TypedForest

/-- The content of a slot that holds a reference or may do so. -/
def Slot.reference? : Slot → Option (Option NamedRef)
  | .reference r => some r
  | _ => none

namespace Document

/-- The identifiers of the children that a record lists, containment by containment. -/
def Record.listed (r : Record) : List String := r.children.flatMap ContainmentEntry.children

/-- The concept of the record belongs to the language. -/
def Record.uses (l : LanguageUse) (r : Record) : Bool :=
  r.concept.language == some l.key && r.concept.version == some l.version

/-- The records form one tree, the first of them being the root: every other record is
listed once in the whole document, by the record that it names as its parent, and
nothing is listed that has no record. -/
structure IsTree (d : Document) : Prop where
  nodup : (d.records.map Record.id).Nodup
  root : ∃ r, d.records.head? = some r ∧ r.parent = none ∧
    r.id ∉ d.records.flatMap Record.listed
  contained : ∀ r ∈ d.records.tail, (d.records.flatMap Record.listed).count r.id = 1 ∧
    ∃ p ∈ d.records, r.parent = some p.id ∧ r.id ∈ p.listed
  listed_mem : ∀ p ∈ d.records, ∀ id ∈ p.listed, ∃ r ∈ d.records, r.id = id

/-- The document lists the languages that its concepts belong to, each once, in the
order of the first records that use them. -/
structure ListsLanguages (d : Document) : Prop where
  nodup : d.languages.Nodup
  mem_iff : ∀ l, l ∈ d.languages ↔ ∃ r ∈ d.records, r.uses l = true
  ordered : d.languages.Pairwise fun l k =>
    d.records.findIdx (Record.uses l) < d.records.findIdx (Record.uses k)

/-- The target of a reference from a walk, whose nodes have given identifiers.  It is
left out exactly if the reference is unresolved or leads out of the walk. -/
structure Target.StandsFor (walk : List NodeId) (id : NodeId → String) (r : NamedRef)
    (t : Target) : Prop where
  info_eq : t.info = some r.name
  id_eq : ∀ x, t.id = some x → ∃ c ∈ walk, r.target = some c ∧ x = id c
  id_eq_none : t.id = none ↔ r.target = none ∨ ∃ c, r.target = some c ∧ c ∉ walk

/-- The document consists of the records of the nodes below `root`, in the order of the
traversal. -/
structure Depicts {σ : Type} [Schema σ] (schema : σ) (space : String) (f : Forest)
    (root : NodeId) (record : NodeId → Record) (d : Document) : Prop where
  records_eq : d.records = (f.preorder root).map record
  id_eq : ∀ v ∈ f.preorder root,
    (Namer.structural space).next f v () = (some (record v).id, ())
  concept_eq : ∀ v ∈ f.preorder root,
    Schema.ofType? schema (f.typeOf v) = some (record v).concept ∧
      (record v).concept.isResolved = true
  root_parent : (record root).parent = none
  parent_eq : ∀ v ∈ f.preorder root, v ≠ root → ∃ p ∈ f.preorder root,
    f.parent? v = some p ∧ (record v).parent = some (record p).id
  listed_eq : ∀ v ∈ f.preorder root,
    (record v).listed = (f.children v).map fun c => (record c).id
  targets : ∀ v ∈ f.preorder root,
    List.Forall₂
      (fun reference entry =>
        List.Forall₂ (Target.StandsFor (f.preorder root) fun c => (record c).id)
          reference.toList entry.targets)
      ((f.visible v).filterMap fun facet => facet.slot.reference?) (record v).references

/-! ### First uses -/

section

variable {α : Type} [BEq α]

theorem firstUses_concat (items : List α) (a : α) :
    firstUses (items ++ [a]) =
      if (firstUses items).contains a then firstUses items else firstUses items ++ [a] := by
  rw [firstUses, List.foldl_append]
  rfl

variable [LawfulBEq α]

theorem mem_firstUses {items : List α} {a : α} : a ∈ firstUses items ↔ a ∈ items := by
  induction items using List.reverseRecOn with
  | nil => rfl
  | append_singleton items b ih =>
      rw [firstUses_concat, List.mem_append, List.mem_singleton]
      split
      case isTrue hb =>
        rw [List.contains_iff_mem] at hb
        constructor
        · exact fun ha => .inl (ih.mp ha)
        · rintro (ha | rfl)
          · exact ih.mpr ha
          · exact hb
      case isFalse => rw [List.mem_append, List.mem_singleton, ih]

/-- What is used first comes first. -/
theorem pairwise_firstUses (items : List α) :
    (firstUses items).Pairwise fun a b => items.idxOf a < items.idxOf b := by
  induction items using List.reverseRecOn with
  | nil => exact .nil
  | append_singleton items b ih =>
      -- One more item at the end does not move the first uses of the others.
      have hold : (firstUses items).Pairwise fun a c =>
          (items ++ [b]).idxOf a < (items ++ [b]).idxOf c := by
        refine ih.imp_of_mem fun ha hc hlt => ?_
        rwa [List.idxOf_append_of_mem (mem_firstUses.mp ha),
          List.idxOf_append_of_mem (mem_firstUses.mp hc)]
      rw [firstUses_concat]
      split
      · exact hold
      case isFalse hnew =>
        have hb : b ∉ items := fun hb =>
          hnew (List.contains_iff_mem.mpr (mem_firstUses.mpr hb))
        refine List.pairwise_append.mpr ⟨hold, List.pairwise_singleton _ _, ?_⟩
        intro a ha c hc
        have hmem := mem_firstUses.mp ha
        rw [List.mem_singleton.mp hc, List.idxOf_append_of_mem hmem,
          List.idxOf_append_of_notMem hb]
        exact Nat.lt_add_right _ (List.idxOf_lt_length_of_mem hmem)

end

/-- For a complete concept, the language of the record is the one that it uses. -/
theorem uses_eq {r : Record} (h : r.concept.isResolved = true) (l : LanguageUse) :
    r.uses l = (r.language == l) := by
  obtain ⟨version, key⟩ := l
  obtain ⟨⟨hlanguage, hversion⟩, -⟩ :
      (r.concept.language.isSome ∧ r.concept.version.isSome) ∧ r.concept.key.isSome := by
    simpa [Pointer.isResolved] using h
  obtain ⟨k, hk⟩ := Option.isSome_iff_exists.mp hlanguage
  obtain ⟨v, hv⟩ := Option.isSome_iff_exists.mp hversion
  rw [Bool.eq_iff_iff]
  simp [Record.uses, Record.language, hk, hv, and_comm]

/-- The first uses of the languages of records with complete concepts. -/
theorem listsLanguages {d : Document} (h : ∀ r ∈ d.records, r.concept.isResolved = true)
    (hlanguages : d.languages = firstUses (d.records.map Record.language)) :
    ListsLanguages d := by
  have hfirst : ∀ l, d.records.findIdx (Record.uses l) =
      (d.records.map Record.language).idxOf l := by
    intro l
    rw [List.idxOf, List.findIdx_map]
    exact findIdx_congr fun r hr => uses_eq (h r hr) l
  have hordered := pairwise_firstUses (d.records.map Record.language)
  rw [← hlanguages] at hordered
  refine ⟨hordered.imp fun hlt heq => ?_, fun l => ?_, hordered.imp fun hlt => ?_⟩
  · rw [heq] at hlt
    exact Nat.lt_irrefl _ hlt
  · rw [hlanguages, mem_firstUses, List.mem_map]
    refine exists_congr fun r => and_congr_right fun hr => ?_
    rw [uses_eq (h r hr), beq_iff_eq]
  · rw [hfirst, hfirst]
    exact hlt

/-! ### Depicted trees -/

variable {σ : Type} [Schema σ] {schema : σ} {space : String} {f : Forest} {root v : NodeId}
  {record : NodeId → Record} {d : Document}

namespace Depicts

theorem id_eq_structuralId (h : Depicts schema space f root record d) (hf : f.Sound)
    (hv : v ∈ f.preorder root) : (record v).id = f.structuralId space v := by
  have hid := h.id_eq v hv
  rw [Forest.next_structural (hf.exists_of_mem_preorder hv)] at hid
  exact (Option.some.inj (Prod.mk.inj hid).1).symm

/-- Different nodes have records of different identifiers. -/
theorem nodup_ids (h : Depicts schema space f root record d) (hf : f.Sound)
    (hm : f.metamodel.Built) : (d.records.map Record.id).Nodup := by
  rw [h.records_eq, List.map_map]
  refine List.Nodup.map_on (fun u hu v hv heq => ?_) (hf.nodup_preorder root)
  have hids : f.structuralId space u = f.structuralId space v := by
    rw [← h.id_eq_structuralId hf hu, ← h.id_eq_structuralId hf hv]
    exact heq
  refine hf.structuralId_injective hm ?_ hids
  rw [hf.topmost_of_mem_preorder hu, hf.topmost_of_mem_preorder hv]

theorem records_cons (h : Depicts schema space f root record d) (hf : f.Sound)
    (hroot : (f.get? root).isSome) :
    d.records = record root :: (f.below root).map record := by
  rw [h.records_eq, hf.preorder_eq hroot, List.map_cons]

/-- **What all records list, taken together, are the identifiers of all records but the
first.** -/
theorem perm_listed (h : Depicts schema space f root record d) (hf : f.Sound)
    (hroot : (f.get? root).isSome) :
    (d.records.flatMap Record.listed).Perm (d.records.tail.map Record.id) := by
  have hlisted : d.records.flatMap Record.listed =
      ((f.preorder root).flatMap f.children).map fun c => (record c).id := by
    rw [h.records_eq, List.flatMap_map, List.map_flatMap]
    exact List.flatMap_congr h.listed_eq
  rw [hlisted, h.records_cons hf hroot, List.tail_cons, List.map_map]
  exact (hf.perm_flatMap_children hroot).map _

/-- **A depicted tree is a tree of records.** -/
theorem isTree (h : Depicts schema space f root record d) (hf : f.Sound)
    (hm : f.metamodel.Built) (hroot : (f.get? root).isSome) : IsTree d := by
  have hnodup := h.nodup_ids hf hm
  have hlisted := h.perm_listed hf hroot
  have hrecords := h.records_cons hf hroot
  rw [hrecords, List.map_cons, List.nodup_cons] at hnodup
  rw [hrecords, List.tail_cons, ← hrecords] at hlisted
  refine ⟨h.nodup_ids hf hm, ⟨record root, by rw [hrecords]; rfl, h.root_parent, ?_⟩, ?_, ?_⟩
  · exact fun hmem => hnodup.1 (hlisted.mem_iff.mp hmem)
  · intro r hr
    rw [hrecords, List.tail_cons] at hr
    refine ⟨?_, ?_⟩
    · rw [hlisted.count_eq]
      exact List.count_eq_one_of_mem hnodup.2 (List.mem_map_of_mem hr)
    · obtain ⟨v, hbelow, rfl⟩ := List.mem_map.mp hr
      have hne : v ≠ root := by
        rintro rfl
        exact hnodup.1 (List.mem_map_of_mem hr)
      have hv : v ∈ f.preorder root := by
        rw [hf.preorder_eq hroot]
        exact List.mem_cons_of_mem _ hbelow
      obtain ⟨p, hp, hup, hparent⟩ := h.parent_eq v hv hne
      obtain rfl | ⟨q, -, hchild⟩ := hf.exists_parent_of_mem_preorder hv
      · exact absurd rfl hne
      obtain rfl : p = q := Option.some.inj (hup.symm.trans (hf.parent?_of_mem_children hchild))
      refine ⟨record p, by rw [h.records_eq]; exact List.mem_map_of_mem hp, hparent, ?_⟩
      rw [h.listed_eq p hp]
      exact List.mem_map_of_mem hchild
  · intro p hp id hid
    have hmem := hlisted.mem_iff.mp (List.mem_flatMap.mpr ⟨p, hp, hid⟩)
    obtain ⟨r, hr, rfl⟩ := List.mem_map.mp hmem
    exact ⟨r, by rw [hrecords]; exact List.mem_cons_of_mem _ hr, rfl⟩

end Depicts

/-! ### Exported documents -/

/-- The records of a tree list its children by their identifiers. -/
theorem listed_recordFor (hf : f.Sound) (hv : v ∈ f.preorder root) :
    (recordFor schema (f.treeName? space root) f root v).listed =
      (f.children v).map (f.structuralId space) := by
  have hentries : ∀ facets : List Facet,
      (facets.filterMap (asContainment? schema (f.treeName? space root) (f.typeOf v))).flatMap
          ContainmentEntry.children =
        (facets.flatMap fun facet => facet.slot.owned).filterMap (f.treeName? space root) := by
    intro facets
    induction facets with
    | nil => rfl
    | cons facet facets ih =>
        rw [filterMap_cons_toList, List.flatMap_append, ih, List.flatMap_cons,
          List.filterMap_append]
        congr 1
        -- A slot that is no containment owns nothing.
        obtain ⟨p, slot⟩ := facet
        cases slot <;> simp [asContainment?, Slot.kind, Kind.isContainment, Slot.owned]
  show ((f.visible v).filterMap _).flatMap _ = _
  rw [hentries, ← f.children_eq_flatMap, ← List.filterMap_eq_map]
  exact List.filterMap_congr fun c hc =>
    treeName?_of_mem (hf.mem_preorder_of_mem_children hv hc)

/-- The targets that are written stand for the references of the node. -/
theorem targets_recordFor {id : NodeId → String}
    (hid : ∀ c ∈ f.preorder root, id c = f.structuralId space c) (v : NodeId) :
    List.Forall₂
      (fun reference entry =>
        List.Forall₂ (Target.StandsFor (f.preorder root) id) reference.toList entry.targets)
      ((f.visible v).filterMap fun facet => facet.slot.reference?)
      (recordFor schema (f.treeName? space root) f root v).references := by
  have htarget : ∀ r : NamedRef, Target.StandsFor (f.preorder root) id r
      ⟨some r.name, r.target.bind (f.treeName? space root)⟩ := by
    rintro ⟨name, target⟩
    cases target with
    | none => exact ⟨rfl, by simp, by simp⟩
    | some c =>
        by_cases hc : c ∈ f.preorder root
        · exact ⟨rfl, by simp [treeName?_of_mem hc, hc, hid], by simp [treeName?_of_mem hc, hc]⟩
        · exact ⟨rfl, by simp [Forest.treeName?, hc], by simp [Forest.treeName?, hc]⟩
  refine List.rel_filterMap (R := Eq) ?_ (List.forall₂_refl _)
  rintro ⟨p, slot⟩ _ rfl
  cases slot with
  | reference r =>
      refine .some ?_
      cases r with
      | none => exact .nil
      | some r => exact .cons (htarget r) .nil
  | value v => exact .none
  | child c => exact .none
  | children cs => exact .none
  | ignored => exact .none

/-- **The document of a tree depicts it.** -/
theorem depicts_ofTree (hf : f.Sound) (hresolves : Schema.Resolves schema f root)
    (space : String) :
    Depicts schema space f root (recordFor schema (f.treeName? space root) f root)
      (ofTree schema space f root (f.preorder root)) := by
  have hid : ∀ {v}, v ∈ f.preorder root →
      (recordFor schema (f.treeName? space root) f root v).id = f.structuralId space v := by
    intro v hv
    simp [recordFor, treeName?_of_mem hv]
  refine
    { records_eq := rfl
      id_eq := fun v hv => by
        rw [hid hv, Forest.next_structural (hf.exists_of_mem_preorder hv)]
      concept_eq := fun v hv => ?_
      root_parent := if_pos rfl
      parent_eq := fun v hv hne => ?_
      listed_eq := fun v hv => ?_
      targets := fun v _ => targets_recordFor (fun c hc => hid hc) v }
  · obtain ⟨concept, hconcept, hresolved⟩ := hresolves v hv
    simp [recordFor, hconcept, hresolved]
  · obtain rfl | ⟨p, hp, hchild⟩ := hf.exists_parent_of_mem_preorder hv
    · exact absurd rfl hne
    · have hup := hf.parent?_of_mem_children hchild
      exact ⟨p, hp, hup, by simp [recordFor, hne, hup, treeName?_of_mem hp]⟩
  · rw [listed_recordFor hf hv]
    exact List.map_congr_left fun c hc => (hid (hf.mem_preorder_of_mem_children hv hc)).symm

/-- A record is made only for a type that has a complete pointer. -/
theorem exists_concept_of_recordOf {ids : Naming} {r : Record}
    (h : recordOf schema f ids root v = .ok r) :
    ∃ concept, Schema.ofType? schema (f.typeOf v) = some concept ∧
      concept.isResolved = true := by
  obtain ⟨n, hn, h⟩ := bind_eq_ok.mp h
  rw [Forest.typeOf_of_get? (Forest.node_eq_ok.mp hn)]
  split at h
  · cases h
  case h_2 concept hconcept =>
    obtain ⟨hpointer, hresolved⟩ := Option.filter_eq_some_iff.mp hconcept
    exact ⟨concept, hpointer, hresolved⟩

/-- **Exporting succeeds exactly if the root exists and all types have pointers.** -/
theorem exists_exportTree_iff (hf : f.Sound) (hm : f.metamodel.Built) :
    (∃ d, exportTree schema space f root = .ok d) ↔
      (f.get? root).isSome ∧ Schema.Resolves schema f root := by
  constructor
  · rintro ⟨d, hd⟩
    have hroot : (f.get? root).isSome := by
      -- The check of the tree asks for its root.
      cases hn : f.get? root with
      | some n => rfl
      | none =>
          obtain ⟨count, hcheck, -⟩ := bind_eq_ok.mp hd
          simp [Forest.checkTree, Forest.node, hn] at hcheck
    refine ⟨hroot, fun v hv => ?_⟩
    obtain ⟨ids, -, hexport⟩ := exists_exportTree_eq hf hm schema space hroot
    rw [hexport] at hd
    obtain ⟨records, hrecords, -⟩ := bind_eq_ok.mp hd
    obtain ⟨r, -, hr⟩ := exists_of_mapM_eq_ok hrecords hv
    exact exists_concept_of_recordOf hr
  · rintro ⟨hroot, hresolves⟩
    exact ⟨_, exportTree_of_resolves hf hm hroot hresolves⟩

/-- **Exported documents are trees.**  For every forest that edits lead to and every
schema, exporting succeeds exactly if the root exists and each type in its tree has a
complete pointer.  The document then consists of the records of the nodes in the order
of the traversal; parents and lists of children make one tree of them; references
lead to the records of their targets, as far as these are in the tree; and the
languages in use are listed in the order of first use. -/
theorem exportTree_isTree {m : Metamodel} (hm : m.Built) {f : Forest}
    (hf : Forest.Reachable m f) {σ : Type} [Schema σ] (schema : σ) (space : String)
    (root : NodeId) :
    ((∃ d, exportTree schema space f root = .ok d) ↔
      (f.get? root).isSome ∧ Schema.Resolves schema f root) ∧
    ∀ d, exportTree schema space f root = .ok d →
      (∃ record, Depicts schema space f root record d) ∧ IsTree d ∧ ListsLanguages d := by
  have hbuilt : f.metamodel.Built := hf.metamodel_eq ▸ hm
  have hiff : (∃ d, exportTree schema space f root = .ok d) ↔
      (f.get? root).isSome ∧ Schema.Resolves schema f root :=
    exists_exportTree_iff hf.sound hbuilt
  refine ⟨hiff, fun d hd => ?_⟩
  obtain ⟨hroot, hresolves⟩ := hiff.mp ⟨d, hd⟩
  obtain rfl : ofTree schema space f root (f.preorder root) = d := Except.ok.inj
    ((exportTree_of_resolves hf.sound hbuilt hroot hresolves).symm.trans hd)
  have hdepicts := depicts_ofTree hf.sound hresolves space
  refine ⟨⟨_, hdepicts⟩, hdepicts.isTree hf.sound hbuilt hroot, listsLanguages ?_ ?_⟩
  · intro r hr
    obtain ⟨v, hv, rfl⟩ := List.mem_map.mp hr
    exact (hdepicts.concept_eq v hv).2
  · rw [ofTree, List.map_map]
    rfl

theorem exportTree_isTree_items :
    itemForest.parent? ⟨2⟩ = some ⟨0⟩ ∧
    ∃ d, exportTree itemLanguage "a" itemForest ⟨2⟩ = .ok d ∧ IsTree d ∧ ListsLanguages d ∧
      ∃ record, Depicts itemLanguage "a" itemForest ⟨2⟩ record d := by
  have h := exportTree_isTree itemModel_built itemForest_reachable itemLanguage "a" ⟨2⟩
  have hresolves : Schema.Resolves itemLanguage itemForest ⟨2⟩ :=
    resolves_of_covers itemForest_reachable.sound itemLanguage_built.faithful (by decide +kernel)
  obtain ⟨d, hd⟩ := h.1.mpr ⟨by decide +kernel, hresolves⟩
  obtain ⟨hdepicts, htree, hlanguages⟩ := h.2 d hd
  exact ⟨by decide +kernel, d, hd, htree, hlanguages, hdepicts⟩

end Document

end TypedForest
