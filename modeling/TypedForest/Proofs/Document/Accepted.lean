import TypedForest.Proofs.Document.RoundTrip
import TypedForest.Proofs.Forest.Address

/-!
# Accepted documents are trees

A document may come from anywhere: its records may share identifiers, name parents in
a circle, or list children that name another parent.  Reading it makes a check here
and there, and only when all of them have passed is there a forest.  Together they
leave documents that are one tree, and the forest is that tree.

The first pass numbers the nodes like the records.  In the second pass every edit is
a command for the node of the record that is read, and a child that a command names is
one that this record lists.  Hence at any time whoever owns a node has a record that
lists it.  The final check compares the parents that came about with the declared ones,
so what is known of reachable forests carries over to the declarations.

## Main Definitions

* `Document.Declares`: one record names another as its parent.
* `Document.SingleTree`: the declarations make one tree of the records.
* `Document.ReadAs`: the forest has the records as its nodes and the declared parents.
* `Document.Follows`: what holds of the forest while a document is read.
* `Document.Issued`: the commands that reading a record gives.

## Main Results

* `Follows.createNode`, `follows_createNodes`: a step of the first pass, and all of it.
* `keeps_addFeatures`: a record is read by commands.
* `Follows.edit`, `Follows.addFeatures`: a step of the second pass, and all of it.
* `importTree_accepts`: accepted documents are trees.
-/

namespace TypedForest

namespace Document

variable {σ : Type} [Schema σ] {schema : σ} {m : Metamodel} {d : Document} {f g : Forest}
  {records : List Record} {entries : List Entry} {r : Record} {root : NodeId}

/-- The identifiers of the children that a record lists under complete pointers. -/
def Record.contained (r : Record) : List String :=
  (r.children.filter fun entry => entry.containment.isResolved).flatMap
    ContainmentEntry.children

/-- The record at place `i` names the record at place `j` as its parent. -/
def Declares (d : Document) (i j : Nat) : Prop :=
  ∃ r p, d.records[i]? = some r ∧ d.records[j]? = some p ∧ r.parent = some p.id

/-- The records make one tree: no two share an identifier, nobody is its own ancestor,
whoever is named as a parent lists the record that does so, and exactly one record
names no parent in the document. -/
structure SingleTree (d : Document) : Prop where
  nodup : (d.records.map Record.id).Nodup
  acyclic : ∀ i, ¬ Relation.TransGen d.Declares i i
  contained : ∀ {i j : Nat} {r p : Record}, d.records[i]? = some r → d.records[j]? = some p →
    r.parent = some p.id → r.id ∈ p.contained
  root : ∃! i, i < d.records.length ∧ ∀ j, ¬ d.Declares i j

/-- The forest is the tree that the records describe: the nodes are numbered like the
records and have the types of their concepts and the declared parents, and `root` is
the only one without a parent, where all the others lead. -/
structure ReadAs (schema : σ) (d : Document) (f : Forest) (root : NodeId) : Prop where
  size_eq : f.size = d.records.length
  type_eq : ∀ {i : Nat} {r : Record}, d.records[i]? = some r →
    ∃ n, f.get? ⟨i⟩ = some n ∧ Schema.toType? schema r.concept = some n.type
  parent_iff : ∀ {i j : Nat}, f.parent? ⟨i⟩ = some ⟨j⟩ ↔ d.Declares i j
  root_iff : ∀ {x : NodeId}, (f.get? x).isSome ∧ f.parent? x = none ↔ x = root
  ancestors : ∀ {x : NodeId}, (f.get? x).isSome → x ≠ root →
    (f.ancestors x).getLast? = some root

/-- The table of the nodes, one for each record. -/
def tableOf (schema : σ) (records : List Record) : List Entry :=
  records.mapIdx fun i r => ⟨r.id, (Schema.toType? schema r.concept).getD "", ⟨i⟩⟩

/-- The record lists the node. -/
def Record.Lists (entries : List Entry) (r : Record) (c : NodeId) : Prop :=
  ∃ id ∈ r.contained, nodeOf? entries id = some c

/-- What holds of the forest while a document is read: it can be reached by commands,
its nodes are those of the records, and a node owns what it may own. -/
structure Follows (schema : σ) (m : Metamodel) (records : List Record)
    (may : Record → NodeId → Prop) (f : Forest) : Prop where
  reachable : Forest.Reachable m f
  size_eq : f.size = records.length
  type_eq : ∀ {i : Nat} {r : Record}, records[i]? = some r →
    ∃ n, f.get? ⟨i⟩ = some n ∧ Schema.toType? schema r.concept = some n.type
  owned : ∀ {i : Nat} {r : Record} {c : NodeId}, records[i]? = some r → f.Owns ⟨i⟩ c → may r c

/-! ### The table -/

theorem getElem?_tableOf (schema : σ) (records : List Record) (i : Nat) :
    (tableOf schema records)[i]? =
      records[i]?.map fun r => ⟨r.id, (Schema.toType? schema r.concept).getD "", ⟨i⟩⟩ := by
  rw [tableOf, List.getElem?_mapIdx]

theorem map_id_tableOf (schema : σ) (records : List Record) :
    (tableOf schema records).map Entry.id = records.map Record.id := by
  refine List.ext_getElem? fun i => ?_
  rw [List.getElem?_map, getElem?_tableOf, List.getElem?_map, Option.map_map]
  rfl

/-- The table leads from an identifier to the place of its record. -/
theorem nodeOf?_tableOf (hnodup : (records.map Record.id).Nodup) {id : String} {c : NodeId} :
    nodeOf? (tableOf schema records) id = some c ↔
      ∃ r, records[c.index]? = some r ∧ r.id = id := by
  rw [nodeOf?, Option.map_eq_some_iff]
  constructor
  · rintro ⟨e, hfind, rfl⟩
    obtain ⟨i, hi⟩ := List.mem_iff_getElem?.mp (List.mem_of_find?_eq_some hfind)
    rw [getElem?_tableOf, Option.map_eq_some_iff] at hi
    obtain ⟨r, hr, rfl⟩ := hi
    exact ⟨r, hr, by simpa using List.find?_some hfind⟩
  · rintro ⟨r, hr, rfl⟩
    have hmem : (⟨r.id, (Schema.toType? schema r.concept).getD "", c⟩ : Entry) ∈
        tableOf schema records := by
      refine List.mem_of_getElem? (i := c.index) ?_
      rw [getElem?_tableOf, hr]
      rfl
    rw [← map_id_tableOf schema] at hnodup
    exact ⟨_, find?_of_nodup_key Entry.id hnodup hmem, rfl⟩

/-- The pairs of records and entries. -/
theorem mem_zip_tableOf {pair : Record × Entry} :
    pair ∈ records.zip (tableOf schema records) ↔
      ∃ i r, records[i]? = some r ∧
        pair = (r, ⟨r.id, (Schema.toType? schema r.concept).getD "", ⟨i⟩⟩) := by
  rw [List.mem_iff_getElem?]
  refine exists_congr fun i => ?_
  obtain ⟨r, e⟩ := pair
  rw [List.getElem?_zip_eq_some, getElem?_tableOf]
  constructor
  · rintro ⟨hr, he⟩
    rw [hr] at he
    exact ⟨r, hr, congrArg (Prod.mk r) (Option.some.inj he).symm⟩
  · rintro ⟨r', hr, heq⟩
    obtain ⟨rfl, rfl⟩ := Prod.mk.inj heq
    rw [hr]
    exact ⟨rfl, rfl⟩

/-- **Records are found under their identifiers.**  Where these are distinct, looking up the
nodes of all records gives the table back. -/
theorem entered_tableOf (hnodup : (records.map Record.id).Nodup) :
    entered (tableOf schema records) records = records.zip (tableOf schema records) := by
  refine entered_eq_zip fun pair hpair => ?_
  obtain ⟨i, r, hr, rfl⟩ := mem_zip_tableOf.mp hpair
  exact (nodeOf?_tableOf hnodup).mpr ⟨r, hr, rfl⟩

/-! ### The first pass -/

theorem follows_empty (schema : σ) (m : Metamodel) (may : Record → NodeId → Prop) :
    Follows schema m [] may { metamodel := m } where
  reachable := Forest.reachable_empty m
  size_eq := rfl
  type_eq := by simp
  owned := by simp

/-- What the step for one record does: the type of the concept is known, the
identifier is new, and a node is made. -/
theorem exists_of_createNode {entries' : List Entry}
    (h : createNode schema entries r f = .ok entries' g) :
    ∃ type id, Schema.toType? schema r.concept = some type ∧ Edit.create type f = .ok id g ∧
      nodeOf? entries r.id = none ∧ entries' = entries ++ [⟨r.id, type, id⟩] := by
  cases htype : Schema.toType? schema r.concept with
  | none =>
      rw [createNode, htype] at h
      cases h
  | some type =>
      rw [createNode, htype] at h
      obtain ⟨id, f', hcreate, hrest⟩ := Edit.exists_of_bind h
      cases hnew : nodeOf? entries r.id with
      | some _ =>
          rw [hnew] at hrest
          cases hrest
      | none =>
          rw [hnew] at hrest
          obtain ⟨rfl, rfl⟩ := EStateM.Result.ok.inj hrest
          exact ⟨type, id, rfl, hcreate, rfl, rfl⟩

/-- An identifier that leads nowhere is new. -/
theorem nodup_concat (hnodup : (records.map Record.id).Nodup)
    (hnew : nodeOf? (tableOf schema records) r.id = none) :
    ((records ++ [r]).map Record.id).Nodup := by
  rw [List.map_append, List.map_singleton, List.nodup_append]
  refine ⟨hnodup, List.nodup_singleton _, ?_⟩
  rintro _ hid _ hr rfl
  rw [List.mem_singleton] at hr
  obtain ⟨r', hr', rfl⟩ := List.mem_map.mp hid
  obtain ⟨i, hi⟩ := List.mem_iff_getElem?.mp hr'
  have hknown : nodeOf? (tableOf schema records) r.id = some ⟨i⟩ :=
    (nodeOf?_tableOf hnodup).mpr ⟨r', hi, hr⟩
  rw [hnew] at hknown
  cases hknown

/-- **A step of the first pass.**  The new node gets the place of its record as its
number, and it owns nothing. -/
theorem Follows.createNode {may : Record → NodeId → Prop} (hf : Follows schema m records may f)
    (hnodup : (records.map Record.id).Nodup)
    (h : createNode schema (tableOf schema records) r f = .ok entries g) :
    entries = tableOf schema (records ++ [r]) ∧ ((records ++ [r]).map Record.id).Nodup ∧
      Follows schema m (records ++ [r]) may g := by
  obtain ⟨type, id, htype, hcreate, hnew, rfl⟩ := exists_of_createNode h
  obtain ⟨rfl, t, ht, -, rfl⟩ := Edit.exists_of_create hcreate
  have hslots : (t.effective.map fun p => Slot.empty p.kind) =
      (t.effective.map Property.kind).map Slot.empty := by
    rw [List.map_map]
    rfl
  refine ⟨?_, nodup_concat hnodup hnew, hf.reachable.create hcreate, ?_, ?_, ?_⟩
  · rw [tableOf, tableOf, List.mapIdx_concat, htype, hf.size_eq]
    rfl
  · simp [Effect.apply, Forest.size, ← hf.size_eq]
  · intro i r' hr'
    rcases getElem?_concat_eq_some.mp hr' with hold | ⟨rfl, rfl⟩
    · obtain ⟨n, hn, htype'⟩ := hf.type_eq hold
      exact ⟨n, Forest.get?_created_of_some hn _ _, htype'⟩
    · rw [Forest.get?_created, if_pos hf.size_eq.symm]
      exact ⟨_, rfl, htype⟩
  · intro i r' c hr' howns
    rw [hslots, Forest.owns_created] at howns
    rcases getElem?_concat_eq_some.mp hr' with hold | ⟨rfl, rfl⟩
    · exact hf.owned hold howns
    · -- The new node was not there before, so it owned nothing.
      have hlt := (f.get?_isSome_iff _).mp howns.isSome_owner
      exact absurd hf.size_eq (Nat.ne_of_gt hlt)

/-- **The whole first pass.**  It leads to the table of all records, whose identifiers
are distinct. -/
theorem follows_createNodes {may : Record → NodeId → Prop}
    (h : createNodes schema records { metamodel := m } = .ok entries f) :
    entries = tableOf schema records ∧ (records.map Record.id).Nodup ∧
      Follows schema m records may f := by
  -- The induction is on the records still to come, for any number of records done.
  have hrun : ∀ (rest done : List Record) (g : Forest), (done.map Record.id).Nodup →
      Follows schema m done may g →
      rest.foldlM (Document.createNode schema) (tableOf schema done) g = .ok entries f →
      entries = tableOf schema (done ++ rest) ∧ ((done ++ rest).map Record.id).Nodup ∧
        Follows schema m (done ++ rest) may f := by
    intro rest
    induction rest with
    | nil =>
        intro done g hnodup hg hrest
        obtain ⟨rfl, rfl⟩ := EStateM.Result.ok.inj hrest
        rw [List.append_nil]
        exact ⟨rfl, hnodup, hg⟩
    | cons r rest ih =>
        intro done g hnodup hg hrest
        rw [List.foldlM_cons] at hrest
        obtain ⟨entries', g', hstep, hrest⟩ := Edit.exists_of_bind hrest
        obtain ⟨rfl, hnodup', hg'⟩ := hg.createNode hnodup hstep
        rw [List.append_cons]
        exact ih (done ++ [r]) g' hnodup' hg' hrest
  exact hrun records [] _ List.nodup_nil (follows_empty schema m may) h

/-! ### The second pass -/

/-- The commands that reading a record gives for its node. -/
inductive Issued (entries : List Entry) (r : Record) (node : NodeId) : Command → Prop
  | value (name : String) (v : Value) : Issued entries r node (.setValue node name v)
  | child (name : String) {child : Option NodeId} (h : ∀ c ∈ child, r.Lists entries c) :
      Issued entries r node (.setChild node name child)
  | append (name : String) {child : NodeId} (h : r.Lists entries child) :
      Issued entries r node (.append node name child)
  | reference (name : String) (reference : Option NamedRef) :
      Issued entries r node (.setReference node name reference)

/-- What is known of a property that a pointer led to. -/
theorem exists_of_featureOf {type : String} {pointer : Pointer} {p : Property}
    (h : featureOf schema type r pointer f = .ok (some p)) :
    pointer.isResolved = true ∧ Schema.toProperty? schema type pointer = some p.name ∧
      ∃ t, f.metamodel.type type = .ok t ∧ t.property? p.name = some p := by
  rw [featureOf] at h
  split at h
  case isFalse => cases h
  case isTrue hresolved =>
    split at h
    case h_1 => cases h
    case h_2 name hname =>
      obtain ⟨t, ht, h⟩ := bind_eq_ok.mp h
      split at h
      case h_1 => cases h
      case h_2 p' hp =>
        obtain rfl := Option.some.inj (Except.ok.inj h)
        obtain rfl : p'.name = name := by simpa using List.find?_some hp
        exact ⟨hresolved, hname, t, ht, hp⟩

/-- Records of the type fill the containment of the given name by the entry. -/
def ContainmentEntry.Names (schema : σ) (type : String) (entry : ContainmentEntry)
    (name : String) : Prop :=
  entry.containment.isResolved = true ∧
    Schema.toProperty? schema type entry.containment = some name

/-- Every identifier of a list has its node. -/
theorem exists_mem_childNodes {children : List String} {nodes : List NodeId}
    (h : childNodes entries r children = .ok nodes) {id : String} (hid : id ∈ children) :
    ∃ c ∈ nodes, nodeOf? entries id = some c := by
  obtain ⟨c, hc, hnode⟩ := exists_of_mapM_eq_ok h hid
  split at hnode
  case h_1 node hfound => exact ⟨c, hc, by rw [hfound, Except.ok.inj hnode]⟩
  case h_2 => cases hnode

/-- Every node of a list of identifiers is that of one of them. -/
theorem exists_id_of_childNodes {children : List String} {nodes : List NodeId}
    (h : childNodes entries r children = .ok nodes) {c : NodeId} (hc : c ∈ nodes) :
    ∃ id ∈ children, nodeOf? entries id = some c := by
  obtain ⟨id, hid, hnode⟩ := exists_of_mem_mapM h hc
  refine ⟨id, hid, ?_⟩
  split at hnode
  case h_1 node hfound => rw [hfound, Except.ok.inj hnode]
  case h_2 => cases hnode

/-- The nodes of listed children are listed. -/
theorem lists_of_childNodes {entry : ContainmentEntry} {nodes : List NodeId}
    (hentry : entry ∈ r.children) (hresolved : entry.containment.isResolved = true)
    (h : childNodes entries r entry.children = .ok nodes) :
    ∀ c ∈ nodes, r.Lists entries c := by
  intro c hc
  obtain ⟨id, hid, hnode⟩ := exists_id_of_childNodes h hc
  exact ⟨id, List.mem_flatMap.mpr ⟨entry, List.mem_filter.mpr ⟨hentry, hresolved⟩, hid⟩, hnode⟩

section

open Edit

variable {motive : Forest → Prop}

theorem keeps_withFeature {type : String} {pointer : Pointer} {group : FeatureGroup}
    {kinds : List Kind} {edit : Property → Edit Unit}
    (h : pointer.isResolved = true → ∀ p : Property,
      Schema.toProperty? schema type pointer = some p.name → Keeps motive (edit p)) :
    Keeps motive (withFeature schema type r pointer group kinds edit) := by
  refine Keeps.ask_bind fun f answer hanswer => ?_
  cases answer with
  | none => exact Keeps.pure ()
  | some p =>
      obtain ⟨hresolved, hname, -⟩ := exists_of_featureOf hanswer
      dsimp only
      split
      · exact h hresolved p hname
      · exact Keeps.throw _

theorem keeps_addProperty {e : Entry} {entry : PropertyEntry}
    (h : ∀ name v, Keeps motive (Command.edit (.setValue e.node name v))) :
    Keeps motive (addProperty schema e r entry) :=
  keeps_withFeature fun _ p _ => Keeps.ask_bind fun _ v _ => h p.name v

/-- A containment is read by filling it or by appending to it. -/
theorem keeps_addChildren {e : Entry} {entry : ContainmentEntry}
    (hchild : ∀ name nodes, entry.Names schema e.type name →
      childNodes entries r entry.children = .ok nodes →
      Keeps motive (Command.edit (.setChild e.node name nodes.head?)))
    (happend : ∀ name nodes, entry.Names schema e.type name →
      childNodes entries r entry.children = .ok nodes →
      ∀ c ∈ nodes, Keeps motive (Command.edit (.append e.node name c))) :
    Keeps motive (addChildren schema entries e r entry) := by
  refine keeps_withFeature fun hresolved p hname => Keeps.ask_bind fun _ nodes hnodes => ?_
  split
  · split
    · exact Keeps.throw _
    · exact hchild p.name nodes ⟨hresolved, hname⟩ hnodes
  · exact Keeps.forM fun c hc => happend p.name nodes ⟨hresolved, hname⟩ hnodes c hc

theorem keeps_addReference {e : Entry} {entry : ReferenceEntry}
    (h : ∀ name reference, Keeps motive (Command.edit (.setReference e.node name reference))) :
    Keeps motive (addReference schema entries e r entry) := by
  refine keeps_withFeature fun _ p _ => ?_
  split
  · exact Keeps.throw _
  · exact h p.name _

/-- The children of a record are read by commands.  One that fills a single containment is
due to the entry that names it. -/
theorem keeps_addChildren_of_issued {e : Entry} {entry : ContainmentEntry}
    (hentry : entry ∈ r.children)
    (h : ∀ c, Issued entries r e.node c →
      (∀ name child, c = .setChild e.node name child → entry.Names schema e.type name) →
      Keeps motive c.edit) :
    Keeps motive (addChildren schema entries e r entry) := by
  refine keeps_addChildren (fun name nodes hnames hnodes => ?_)
    fun name nodes hnames hnodes c hc => ?_
  · have hlists := lists_of_childNodes hentry hnames.1 hnodes
    refine h _ (.child name fun c hc => hlists c (List.mem_of_mem_head? hc)) ?_
    intro name' child hcommand
    obtain ⟨-, rfl, -⟩ := Command.setChild.inj hcommand
    exact hnames
  · refine h _ (.append name (lists_of_childNodes hentry hnames.1 hnodes c hc)) ?_
    intro name' child hcommand
    cases hcommand

/-- **A record is read by commands.**  What these commands keep, reading the record
keeps. -/
theorem keeps_addFeatures {e : Entry}
    (h : ∀ c, Issued entries r e.node c → Keeps motive c.edit) :
    Keeps motive (addFeatures schema entries (r, e)) :=
  Keeps.bind (.forM fun _ _ => keeps_addProperty fun name v => h _ (.value name v)) fun _ =>
    Keeps.bind (.forM fun _ hentry => keeps_addChildren_of_issued hentry fun c hc _ => h c hc) fun _ =>
      .forM fun _ _ => keeps_addReference fun name reference => h _ (.reference name reference)

end

/-- The effect of a command that was issued: new content for a slot of the node, which
owns nothing but what the node owned before and what the record lists. -/
theorem Issued.exists_refilled {node : NodeId} {c : Command} (h : Issued entries r node c)
    (hf : f.Sound) {e : Effect} (he : c.effect f = .ok e) :
    ∃ site slot, e = .refilled node site slot ∧
      ∀ x ∈ slot.owned, f.Owns node x ∨ r.Lists entries x := by
  cases h with
  | value name v =>
      obtain ⟨site, -, he⟩ := bind_eq_ok.mp he
      obtain ⟨_, -, he⟩ := bind_eq_ok.mp he
      exact ⟨site, _, (Except.ok.inj he).symm, by simp [Slot.owned]⟩
  | @child name child h =>
      obtain ⟨site, -, rfl⟩ := Command.exists_refills_setChild he
      refine ⟨site, _, rfl, fun x hx => .inr (h x ?_)⟩
      rw [Slot.owned_of_kind_single rfl] at hx
      simpa [Slot.single?] using hx
  | @append name child h =>
      obtain ⟨site, n, hn, hsite, rfl⟩ := Command.exists_refills_append he
      obtain ⟨n', s, hat, hkind⟩ := hf.exists_slotAt hsite
      obtain rfl : n' = n := Option.some.inj (hat.get?_eq.symm.trans hn)
      refine ⟨site, _, rfl, fun x hx => ?_⟩
      rcases List.mem_append.mp hx with hold | hnew
      · rw [hat.slotAt_eq, ← Slot.owned_of_kind_multiple hkind, ← hat.ownedAt_eq] at hold
        exact .inl (Forest.owns_of_mem_ownedAt hold)
      · exact .inr (List.mem_singleton.mp hnew ▸ h)
  | reference name reference =>
      obtain ⟨site, -, he⟩ := bind_eq_ok.mp he
      obtain ⟨_, -, he⟩ := bind_eq_ok.mp he
      exact ⟨site, _, (Except.ok.inj he).symm, by simp [Slot.owned]⟩

/-- **A step of the second pass.**  A command for the node of a record changes only what
this node owns. -/
theorem Follows.edit {i : Nat} (hr : records[i]? = some r) {c : Command}
    (hc : Issued entries r ⟨i⟩ c) :
    Edit.Keeps (Follows schema m records (Record.Lists entries)) c.edit := by
  intro f a g hf h
  have hsound := hf.reachable.sound
  have hreachable := hf.reachable.edit h
  obtain ⟨e, he, rfl⟩ := hsound.edit_eq_ok h
  obtain ⟨site, slot, rfl, hslot⟩ := hc.exists_refilled hsound he
  have hadmits : f.Admits ⟨i⟩ site slot := Command.admissible hsound he
  refine ⟨hreachable, (f.size_refill _ _ _).trans hf.size_eq, ?_, ?_⟩
  · intro j r' hr'
    obtain ⟨n, hn, htype⟩ := hf.type_eq hr'
    rw [Effect.apply, Forest.get?_refill, hn]
    exact ⟨_, rfl, htype⟩
  · intro j r' x hr' howns
    rw [Effect.apply, Forest.owns_refill hadmits hsound] at howns
    split at howns
    case isTrue hj =>
      obtain rfl : j = i := congrArg NodeId.index hj
      obtain rfl : r = r' := Option.some.inj (hr.symm.trans hr')
      rcases howns with hnew | ⟨hold, -⟩
      · exact (hslot x hnew).elim (hf.owned hr) id
      · exact hf.owned hr hold
    case isFalse => exact hf.owned hr' howns

/-- **The whole second pass.** -/
theorem Follows.addFeatures :
    Edit.Keeps (Follows schema m records (Record.Lists entries))
      ((records.zip (tableOf schema records)).forM (addFeatures schema entries)) := by
  refine Edit.Keeps.forM fun pair hpair => ?_
  obtain ⟨i, r, hr, rfl⟩ := mem_zip_tableOf.mp hpair
  exact keeps_addFeatures fun c hc => Follows.edit hr hc

/-! ### The final check -/

/-- What the comparison of parents establishes. -/
theorem parentless_eq_ok {pairs : List (Record × Entry)} {roots : List NodeId}
    (h : parentless entries f pairs = .ok roots) :
    (∀ pair ∈ pairs, f.parent? pair.2.node = pair.1.parent.bind (nodeOf? entries)) ∧
      ∀ x, x ∈ roots ↔ (∃ pair ∈ pairs, pair.2.node = x) ∧ f.parent? x = none := by
  induction pairs generalizing roots with
  | nil =>
      obtain rfl := Except.ok.inj h
      simp
  | cons pair pairs ih =>
      obtain ⟨r, e⟩ := pair
      obtain ⟨n, hn, h⟩ := bind_eq_ok.mp h
      rw [Forest.node_eq_ok] at hn
      have hparent := Forest.parent?_of_get? hn
      split at h
      case isTrue hsame =>
        obtain ⟨rest, hrest, h⟩ := bind_eq_ok.mp h
        obtain ⟨hdeclared, hroots⟩ := ih hrest
        refine ⟨List.forall_mem_cons.mpr ⟨hparent.trans hsame, hdeclared⟩, fun x => ?_⟩
        obtain rfl := Except.ok.inj h
        rw [← hparent]
        cases hfree : f.parent? e.node with
        | none =>
            rw [Option.isNone_none, if_pos rfl, List.mem_cons, hroots]
            constructor
            · rintro (rfl | ⟨⟨pair, hpair, hnode⟩, hx⟩)
              · exact ⟨⟨_, List.mem_cons_self, rfl⟩, hfree⟩
              · exact ⟨⟨pair, List.mem_cons_of_mem _ hpair, hnode⟩, hx⟩
            · rintro ⟨⟨pair, hpair, hnode⟩, hx⟩
              rcases List.mem_cons.mp hpair with rfl | hpair
              · exact .inl hnode.symm
              · exact .inr ⟨⟨pair, hpair, hnode⟩, hx⟩
        | some p =>
            rw [Option.isNone_some, if_neg Bool.false_ne_true, hroots]
            refine and_congr_left fun hx => ?_
            rw [List.exists_mem_cons_iff]
            refine (or_iff_right ?_).symm
            rintro rfl
            rw [hx] at hfree
            cases hfree
      case isFalse => cases h

theorem parentless_of_soleRoot (h : soleRoot entries records f = .ok root) :
    parentless entries f (entered entries records) = .ok [root] := by
  obtain ⟨roots, hroots, h⟩ := bind_eq_ok.mp h
  split at h
  case h_1 => rw [hroots, Except.ok.inj h]
  all_goals cases h

/-! ### Accepted documents -/

/-- The passes of a reading that succeeded: what holds between them, the second one, and
the final check. -/
theorem exists_passes_of_importTree (h : importTree schema m d = .ok (f, root)) :
    (d.records.map Record.id).Nodup ∧
      parentless (tableOf schema d.records) f
        (d.records.zip (tableOf schema d.records)) = .ok [root] ∧
      ∃ g, Follows schema m d.records (Record.Lists (tableOf schema d.records)) g ∧
        (d.records.zip (tableOf schema d.records)).forM
          (addFeatures schema (tableOf schema d.records)) g = .ok () f := by
  rw [importTree] at h
  split at h
  case isFalse => cases h
  case isTrue =>
    split at h
    case h_2 => cases h
    case h_1 root' f' hbuild =>
      obtain ⟨rfl, rfl⟩ := Prod.mk.inj (Except.ok.inj h)
      obtain ⟨entries, g, hfirst, hbuild⟩ := Edit.exists_of_bind hbuild
      obtain ⟨_, f₂, hsecond, hcheck⟩ := Edit.exists_of_bind hbuild
      obtain ⟨hroot, rfl⟩ := Edit.exists_of_ask hcheck
      obtain ⟨rfl, hnodup, hfollows⟩ := follows_createNodes hfirst
      have hcheck := parentless_of_soleRoot hroot
      rw [entered_tableOf hnodup] at hcheck hsecond
      exact ⟨hnodup, hcheck, g, hfollows, hsecond⟩

/-- What holds after a reading that succeeded. -/
theorem exists_of_importTree (h : importTree schema m d = .ok (f, root)) :
    (d.records.map Record.id).Nodup ∧
      Follows schema m d.records (Record.Lists (tableOf schema d.records)) f ∧
      parentless (tableOf schema d.records) f
        (d.records.zip (tableOf schema d.records)) = .ok [root] := by
  obtain ⟨hnodup, hcheck, g, hfollows, hsecond⟩ := exists_passes_of_importTree h
  exact ⟨hnodup, Follows.addFeatures g _ _ hfollows hsecond, hcheck⟩

/-- Whatever is read can be reached by commands. -/
theorem reachable_of_importTree (h : importTree schema m d = .ok (f, root)) :
    Forest.Reachable m f :=
  (exists_of_importTree h).2.1.reachable

/-- Once the parents have been compared, they are the declared ones. -/
theorem Follows.parent_iff {may : Record → NodeId → Prop} (hf : Follows schema m d.records may f)
    (hnodup : (d.records.map Record.id).Nodup)
    (hdeclared : ∀ pair ∈ d.records.zip (tableOf schema d.records),
      f.parent? pair.2.node = pair.1.parent.bind (nodeOf? (tableOf schema d.records)))
    {i j : Nat} : f.parent? ⟨i⟩ = some ⟨j⟩ ↔ d.Declares i j := by
  constructor
  · intro hparent
    have hlt : i < d.records.length := by
      rw [← hf.size_eq]
      exact (f.get?_isSome_iff ⟨i⟩).mp (Forest.isSome_of_parent? hparent)
    have hi := List.getElem?_eq_getElem hlt
    have hnamed := hdeclared _ (mem_zip_tableOf.mpr ⟨i, _, hi, rfl⟩)
    rw [hparent, eq_comm, Option.bind_eq_some_iff] at hnamed
    obtain ⟨id, hid, hnode⟩ := hnamed
    obtain ⟨p, hp, rfl⟩ := (nodeOf?_tableOf hnodup).mp hnode
    exact ⟨_, p, hi, hp, hid⟩
  · rintro ⟨r, p, hr, hp, hid⟩
    have hnamed := hdeclared _ (mem_zip_tableOf.mpr ⟨i, r, hr, rfl⟩)
    rw [hnamed, hid]
    exact (nodeOf?_tableOf hnodup (c := ⟨j⟩)).mpr ⟨p, hp, rfl⟩

theorem readAs_of_importTree (h : importTree schema m d = .ok (f, root)) :
    ReadAs schema d f root := by
  obtain ⟨hnodup, hf, hcheck⟩ := exists_of_importTree h
  obtain ⟨hdeclared, hroots⟩ := parentless_eq_ok hcheck
  have hwf := hf.reachable.sound.wellFormed
  have hroot : ∀ {x : NodeId}, (f.get? x).isSome ∧ f.parent? x = none ↔ x = root := by
    intro x
    refine Iff.trans (and_congr_left fun _ => ?_) ((hroots x).symm.trans List.mem_singleton)
    rw [Forest.get?_isSome_iff, hf.size_eq]
    constructor
    · intro hlt
      exact ⟨_, mem_zip_tableOf.mpr ⟨x.index, _, List.getElem?_eq_getElem hlt, rfl⟩, rfl⟩
    · rintro ⟨pair, hpair, rfl⟩
      obtain ⟨i, r, hr, rfl⟩ := mem_zip_tableOf.mp hpair
      exact (List.getElem?_eq_some_iff.mp hr).1
  refine ⟨hf.size_eq, hf.type_eq, hf.parent_iff hnodup hdeclared, hroot, ?_⟩
  intro x hx hne
  cases hparent : f.parent? x with
  | none => exact absurd (hroot.mp ⟨hx, hparent⟩) hne
  | some p =>
      -- The last ancestor has no parent, and only the root has none.
      rw [hwf.getLast?_ancestors hparent]
      exact congrArg some (hroot.mp ⟨hwf.isSome_topmost hx, hwf.parent?_topmost x⟩)

theorem singleTree_of_importTree (h : importTree schema m d = .ok (f, root)) : d.SingleTree := by
  obtain ⟨hnodup, hf, -⟩ := exists_of_importTree h
  have hread := readAs_of_importTree h
  have hwf := hf.reachable.sound.wellFormed
  refine ⟨hnodup, ?_, ?_, ?_⟩
  · intro i hcycle
    refine hwf.acyclic ⟨i⟩ (hcycle.lift NodeId.mk fun a b hab => ?_)
    exact hread.parent_iff.mpr hab
  · intro i j r p hr hp hparent
    have howns := hwf.parent_iff.mp (hread.parent_iff.mpr ⟨r, p, hr, hp, hparent⟩)
    obtain ⟨id, hid, hnode⟩ := hf.owned hp howns
    obtain ⟨r', hr', rfl⟩ := (nodeOf?_tableOf hnodup).mp hnode
    obtain rfl : r = r' := Option.some.inj (hr.symm.trans hr')
    exact hid
  · have hfree : ∀ i, i < d.records.length ∧ (∀ j, ¬ d.Declares i j) ↔ (⟨i⟩ : NodeId) = root := by
      intro i
      rw [← hread.root_iff, Forest.get?_isSome_iff, hf.size_eq]
      refine and_congr_right fun _ => ?_
      rw [Option.eq_none_iff_forall_ne_some]
      constructor
      · rintro hnone ⟨j⟩ hparent
        exact hnone j (hread.parent_iff.mp hparent)
      · intro hnone j hdeclares
        exact hnone ⟨j⟩ (hread.parent_iff.mpr hdeclares)
    refine ⟨root.index, (hfree _).mpr rfl, fun i hi => ?_⟩
    rw [← (hfree i).mp hi]

/-- **Accepted documents are trees.**  Whatever the document, the metamodel and the
schema are: if the document is read without an error, then its records make one tree,
and the forest is this tree. -/
theorem importTree_accepts {σ : Type} [Schema σ] {schema : σ} {m : Metamodel} {d : Document}
    {f : Forest} {root : NodeId} (h : importTree schema m d = .ok (f, root)) :
    d.SingleTree ∧ ReadAs schema d f root :=
  ⟨singleTree_of_importTree h, readAs_of_importTree h⟩

/-- Three items, the root second.  The root names a parent that is elsewhere and a child
under no pointer, and the hidden child of the last item is listed twice. -/
def itemDocument : Document where
  records :=
    let item key : Pointer := ⟨some "items", some "1", some key⟩
    [{ id := "c", concept := item "items-Item", parent := some "b" },
     { id := "a", concept := item "items-Item", parent := some "elsewhere"
       children := [⟨.unresolved, ["nobody"]⟩, ⟨item "parts", ["b"]⟩] },
     { id := "b", concept := item "items-Item", parent := some "a"
       children := [⟨item "shadow", ["c"]⟩, ⟨item "shadow", ["c"]⟩] }]

theorem importTree_accepts_items :
    ∃ f, importTree itemLanguage itemModel itemDocument = .ok (f, ⟨1⟩) ∧
      itemDocument.SingleTree ∧ ReadAs itemLanguage itemDocument f ⟨1⟩ := by
  have hroot : (importTree itemLanguage itemModel itemDocument).toOption.map Prod.snd =
      some ⟨1⟩ := by decide +kernel
  obtain ⟨⟨f, _⟩, h, rfl⟩ := exists_of_toOption hroot
  exact ⟨f, h, importTree_accepts h⟩

end Document

end TypedForest
