import TypedForest.Proofs.Document.Accepted

/-!
# Where listed children end up

The records of a document list children, entry by entry, and the entries are carried out
in their order.  Several entries of a record may name the same containment.  A multiple
containment then collects the children of all of them.  A single containment is left to
the last one: a child of an earlier entry becomes free again, and nothing stops another
entry from putting it elsewhere.

So in an accepted document every child that is listed for a multiple containment is there.
For a single containment this holds exactly of the children that the last entry for it
lists.

## Main Definitions

* `Document.Contained`: the record of an identifier is a child of another record.

## Main Results

* `Issued.keeps_heldAt`, `Issued.keeps_hasSlot`: what one command preserves.
* `exists_around_entry`: what a whole reading preserves from an entry on.
* `Follows.heldAt_of_stores`, `Follows.hasSlot_of_stores`: what an entry establishes.
* `importTree_contains`: where the listed children of accepted documents are.
* `importTree_drops_child`: a listed child that is elsewhere.
-/

namespace TypedForest

/-- The parts of a loop that succeeded, around one of its items. -/
theorem Edit.exists_of_forM_append {α : Type} {act : α → Edit Unit} {before after : List α}
    {a : α} {f g : Forest} {u : Unit} (h : (before ++ a :: after).forM act f = .ok u g) :
    ∃ f₁ f₂, before.forM act f = .ok () f₁ ∧ act a f₁ = .ok () f₂ ∧
      after.forM act f₂ = .ok () g := by
  induction before generalizing f with
  | nil =>
      obtain ⟨_, f₂, ha, hafter⟩ := exists_of_bind h
      exact ⟨f, f₂, rfl, ha, hafter⟩
  | cons b before ih =>
      obtain ⟨_, f', hb, h⟩ := exists_of_bind h
      obtain ⟨f₁, f₂, hbefore, ha, hafter⟩ := ih h
      exact ⟨f₁, f₂, (bind_of_ok _ hb).trans hbefore, ha, hafter⟩

namespace Document

variable {σ : Type} [Schema σ] {schema : σ} {m : Metamodel} {d : Document} {f g : Forest}
  {records : List Record} {entries : List Entry} {r : Record} {root x : NodeId} {i : Nat}
  {site : Site}

/-! ### What one command preserves -/

theorem Issued.exists_address {node : NodeId} {c : Command} (h : Issued entries r node c) :
    ∃ a, c.address? = some a ∧ a.owner = node := by
  cases h <;> exact ⟨_, rfl, rfl⟩

/-- A predicate is kept together with what holds anyway. -/
theorem Issued.keeps_and {k : Nat} (hr : records[k]? = some r) {c : Command}
    (hc : Issued entries r ⟨k⟩ c) {motive : Forest → Prop}
    (hmotive : ∀ f g, f.Sound → motive f → c.edit f = .ok () g → motive g) :
    Edit.Keeps (fun f => Follows schema m records (Record.Lists entries) f ∧ motive f) c.edit := by
  rintro f u g ⟨hfollows, hf⟩ h
  exact ⟨Follows.edit hr hc f u g hfollows h, hmotive f g hfollows.reachable.sound hf h⟩

/-- **Whatever a multiple containment holds, it keeps.**  The only commands for it append. -/
theorem Issued.keeps_heldAt {k : Nat} (hr : records[k]? = some r) {c : Command}
    (hc : Issued entries r ⟨k⟩ c) {p : NodeId} (hkind : site.property.kind = .multiple) :
    Edit.Keeps (fun f => Follows schema m records (Record.Lists entries) f ∧ f.HeldAt p site x)
      c.edit := by
  refine hc.keeps_and hr fun f g hsound hheld h => ?_
  obtain ⟨s, hslot, hx⟩ := hheld
  obtain ⟨a, ha, -⟩ := hc.exists_address
  rcases hslot.edit hsound ha h with hslot' | ⟨rfl, slot, heffect, hslot'⟩
  · exact ⟨s, hslot', hx⟩
  · refine ⟨slot, hslot', ?_⟩
    have hkinds := congrArg (Option.map Address.kind) ha
    rw [Option.map_some, hkind] at hkinds
    cases hc with
    | value => cases hkinds
    | child => cases hkinds
    | reference => cases hkinds
    | append =>
        obtain ⟨site', n, hn, -, heq⟩ := Command.exists_refills_append heffect
        obtain ⟨rfl, rfl, rfl⟩ := Effect.refilled.inj heq
        obtain ⟨n', t, hn', -, -, hs⟩ := id hslot
        obtain rfl : n = n' := Option.some.inj (hn.symm.trans hn')
        have hat : n.slotAt site = s := by simp [Node.slotAt, hs]
        have hlisted := Slot.owned_of_kind_multiple ((hslot.kind_eq hsound).trans hkind)
        rw [hat, ← hlisted]
        exact List.mem_append_left _ hx

/-- A slot keeps its content under commands that are not about its property. -/
theorem Issued.keeps_hasSlot {k : Nat} (hr : records[k]? = some r) {c : Command}
    (hc : Issued entries r ⟨k⟩ c) {p : NodeId} {s : Slot}
    (hother : c.address? ≠ some ⟨p, site.property.name, site.property.kind⟩) :
    Edit.Keeps (fun f => Follows schema m records (Record.Lists entries) f ∧ f.HasSlot p site s)
      c.edit := by
  refine hc.keeps_and hr fun f g hsound hslot h => ?_
  obtain ⟨a, ha, -⟩ := hc.exists_address
  rcases hslot.edit hsound ha h with hslot' | ⟨rfl, -⟩
  · exact hslot'
  · exact absurd ha hother

/-! ### What an entry establishes -/

/-- How a containment is filled: a single one takes a child or none, a multiple one takes
the children one after the other. -/
structure Stores (node : NodeId) (p : Property) (nodes : List NodeId) (f g : Forest) : Prop where
  kind_eq : p.kind = .single ∨ p.kind = .multiple
  length_le : p.kind = .single → nodes.length ≤ 1
  replaces : p.kind = .single → Command.edit (.setChild node p.name nodes.head?) f = .ok () g
  appends : p.kind = .multiple → nodes.forM (Edit.append node p.name) f = .ok () g

/-- A single containment is given all that the entry lists. -/
theorem Stores.owned_eq {node : NodeId} {p : Property} {nodes : List NodeId}
    (h : Stores node p nodes f g) (hkind : p.kind = .single) :
    (Slot.child nodes.head?).owned = nodes := by
  have hlength := h.length_le hkind
  rcases nodes with _ | ⟨x, _ | ⟨y, nodes⟩⟩
  · rfl
  · rfl
  · simp at hlength

/-- The parts of reading an entry that succeeded. -/
theorem exists_of_addChildren {e : Entry} {entry : ContainmentEntry} {u : Unit}
    (hresolved : entry.containment.isResolved = true)
    (h : addChildren schema entries e r entry f = .ok u g) :
    ∃ t p nodes, f.metamodel.type e.type = .ok t ∧ t.property? p.name = some p ∧
      entry.Names schema e.type p.name ∧ childNodes entries r entry.children = .ok nodes ∧
      Stores e.node p nodes f g := by
  obtain ⟨answer, f₁, hask, h⟩ := Edit.exists_of_bind h
  obtain ⟨hanswer, rfl⟩ := Edit.exists_of_ask hask
  cases answer with
  | none =>
      -- Only an incomplete pointer leads to no property at all.
      rw [featureOf, if_pos hresolved] at hanswer
      split at hanswer
      · cases hanswer
      · obtain ⟨t, -, hanswer⟩ := bind_eq_ok.mp hanswer
        split at hanswer <;> cases hanswer
  | some p =>
      obtain ⟨-, hname, t, ht, hp⟩ := exists_of_featureOf hanswer
      dsimp only at h
      split at h
      case isFalse => cases h
      case isTrue hkinds =>
        obtain ⟨nodes, f₁, hask, hedit⟩ := Edit.exists_of_bind h
        obtain ⟨hnodes, rfl⟩ := Edit.exists_of_ask hask
        have hkind : p.kind = .single ∨ p.kind = .multiple := by simpa using hkinds
        refine ⟨t, p, nodes, ht, hp, ⟨hresolved, hname⟩, hnodes, ?_⟩
        split at hedit
        case isTrue hsingle =>
          split at hedit
          · cases hedit
          case isFalse hlength =>
            exact ⟨hkind, fun _ => Nat.le_of_not_lt hlength, fun _ => hedit, by simp [hsingle]⟩
        case isFalse hsingle =>
          exact ⟨hkind, fun h => absurd h hsingle, fun h => absurd h hsingle, fun _ => hedit⟩

/-- **The children of an entry for a multiple containment are held there.**  Each is appended,
and the children after it are appended behind it. -/
theorem Follows.heldAt_of_stores (hf : Follows schema m records (Record.Lists entries) f)
    (hr : records[i]? = some r) {p : Property} {nodes : List NodeId}
    (hlists : ∀ c ∈ nodes, r.Lists entries c) (hstores : Stores ⟨i⟩ p nodes f g)
    (hkind : p.kind = .multiple) (hx : x ∈ nodes) :
    ∃ site, site.property.name = p.name ∧ site.property.kind = .multiple ∧
      Follows schema m records (Record.Lists entries) g ∧ g.HeldAt ⟨i⟩ site x := by
  have hissued : ∀ c ∈ nodes, Issued entries r ⟨i⟩ (.append ⟨i⟩ p.name c) :=
    fun c hc => .append p.name (hlists c hc)
  obtain ⟨before, after, rfl⟩ := List.append_of_mem hx
  obtain ⟨f₁, f₂, hbefore, happend, hafter⟩ :=
    Edit.exists_of_forM_append (hstores.appends hkind)
  have hf₁ : Follows schema m records (Record.Lists entries) f₁ := by
    refine Edit.Keeps.forM (fun c hc => ?_) f () f₁ hf hbefore
    exact Follows.edit hr (hissued c (List.mem_append_left _ hc))
  have hsound := hf₁.reachable.sound
  have hedit : Command.edit (.append ⟨i⟩ p.name x) f₁ = .ok () f₂ := happend
  obtain ⟨e, he, rfl⟩ := hsound.edit_eq_ok hedit
  obtain ⟨site, n, -, hsite, rfl⟩ := Command.exists_refills_append he
  obtain ⟨-, -, -, -, -, hsitekind, hname⟩ := Forest.locate_eq_ok hsite
  have hadmits : f₁.Admits ⟨i⟩ site (.children (some ((n.slotAt site).listed ++ [x]))) :=
    Command.admissible hsound he
  have hheld : (f₁.refill ⟨i⟩ site.index _).HeldAt ⟨i⟩ site x :=
    ⟨_, hadmits.hasSlot hsound, List.mem_append_right _ (List.mem_singleton_self x)⟩
  have hkeeps : Edit.Keeps (fun f => Follows schema m records (Record.Lists entries) f ∧
      f.HeldAt ⟨i⟩ site x) (after.forM (Edit.append ⟨i⟩ p.name)) :=
    Edit.Keeps.forM fun c hc => (hissued c (List.mem_append_right _
      (List.mem_cons_of_mem _ hc))).keeps_heldAt hr hsitekind
  exact ⟨site, hname, hsitekind,
    hkeeps _ () g ⟨Follows.edit hr (hissued x hx) f₁ () _ hf₁ hedit, hheld⟩ hafter⟩

/-- **An entry for a single containment replaces what is there.** -/
theorem Follows.hasSlot_of_stores (hf : Follows schema m records (Record.Lists entries) f)
    (hr : records[i]? = some r) {p : Property} {nodes : List NodeId}
    (hlists : ∀ c ∈ nodes, r.Lists entries c) (hstores : Stores ⟨i⟩ p nodes f g)
    (hkind : p.kind = .single) :
    ∃ site, site.property.name = p.name ∧ site.property.kind = .single ∧
      Follows schema m records (Record.Lists entries) g ∧
      g.HasSlot ⟨i⟩ site (.child nodes.head?) := by
  have hissued : Issued entries r ⟨i⟩ (.setChild ⟨i⟩ p.name nodes.head?) :=
    .child p.name fun c hc => hlists c (List.mem_of_mem_head? hc)
  have hedit := hstores.replaces hkind
  have hsound := hf.reachable.sound
  have hg := Follows.edit hr hissued f () g hf hedit
  obtain ⟨e, he, rfl⟩ := hsound.edit_eq_ok hedit
  obtain ⟨site, hsite, rfl⟩ := Command.exists_refills_setChild he
  obtain ⟨-, -, -, -, -, hsitekind, hname⟩ := Forest.locate_eq_ok hsite
  have hadmits : f.Admits ⟨i⟩ site (.child nodes.head?) := Command.admissible hsound he
  exact ⟨site, hname, hsitekind, hg, hadmits.hasSlot hsound⟩

/-! ### What a whole reading preserves -/

/-- The pairs of records and entries around the pair of one record. -/
theorem exists_zip_tableOf_eq (schema : σ) (hr : records[i]? = some r) :
    ∃ before after, records.zip (tableOf schema records) =
        before ++ (r, ⟨r.id, (Schema.toType? schema r.concept).getD "", ⟨i⟩⟩) :: after ∧
      ∀ pair ∈ after, ∃ k, k ≠ i ∧ records[k]? = some pair.1 ∧ pair.2.node = ⟨k⟩ := by
  have hpair : (records.zip (tableOf schema records))[i]? =
      some (r, ⟨r.id, (Schema.toType? schema r.concept).getD "", ⟨i⟩⟩) := by
    rw [List.getElem?_zip_eq_some, getElem?_tableOf, hr]
    exact ⟨rfl, rfl⟩
  obtain ⟨hlt, hget⟩ := List.getElem?_eq_some_iff.mp hpair
  refine ⟨(records.zip (tableOf schema records)).take i,
    (records.zip (tableOf schema records)).drop (i + 1), ?_, ?_⟩
  · rw [← hget, ← List.drop_eq_getElem_cons hlt, List.take_append_drop]
  · intro pair hmem
    obtain ⟨n, hn⟩ := List.mem_iff_getElem?.mp hmem
    rw [List.getElem?_drop, List.getElem?_zip_eq_some, getElem?_tableOf] at hn
    obtain ⟨hrecord, hentry⟩ := hn
    rw [hrecord, Option.map_some] at hentry
    exact ⟨i + 1 + n, by omega, hrecord, by rw [← Option.some.inj hentry]⟩

/-- **What a whole reading preserves from an entry on.**  The commands that follow belong to
records, and one that fills a single containment of the record of the entry is
due to a later entry that names it. -/
theorem exists_around_entry (h : importTree schema m d = .ok (f, root)) {q : Record}
    (hq : d.records[i]? = some q) {before after : List ContainmentEntry}
    {entry : ContainmentEntry} (hchildren : q.children = before ++ entry :: after) {type : String}
    (htype : Schema.toType? schema q.concept = some type) :
    ∃ f₁ f₂, Follows schema m d.records (Record.Lists (tableOf schema d.records)) f₁ ∧
      addChildren schema (tableOf schema d.records) ⟨q.id, type, ⟨i⟩⟩ q entry f₁ = .ok () f₂ ∧
      ∀ motive : Forest → Prop,
        (∀ k r c, d.records[k]? = some r → Issued (tableOf schema d.records) r ⟨k⟩ c →
          (k = i → ∀ name child, c = .setChild ⟨i⟩ name child →
            ∃ later ∈ after, later.Names schema type name) → Edit.Keeps motive c.edit) →
        motive f₂ → motive f := by
  obtain ⟨-, -, f₀, hf₀, hpass⟩ := exists_passes_of_importTree h
  obtain ⟨earlier, others, hzip, hothers⟩ := exists_zip_tableOf_eq schema hq
  rw [hzip, htype, Option.getD_some] at hpass
  obtain ⟨g₁, g₂, hearlier, hrecord, hrest⟩ := Edit.exists_of_forM_append hpass
  obtain ⟨_, g₃, hproperties, hrecord⟩ := Edit.exists_of_bind hrecord
  obtain ⟨_, g₄, hcontainments, hreferences⟩ := Edit.exists_of_bind hrecord
  rw [hchildren] at hcontainments
  obtain ⟨f₁, f₂, hbefore, hentry, hafter⟩ := Edit.exists_of_forM_append hcontainments
  have hmem : ∀ other ∈ before ++ entry :: after, other ∈ q.children :=
    fun other hother => hchildren ▸ hother
  have hg₁ : Follows schema m d.records (Record.Lists (tableOf schema d.records)) g₁ := by
    refine Edit.Keeps.forM (fun pair hpair => ?_) f₀ () g₁ hf₀ hearlier
    obtain ⟨k, r, hr, rfl⟩ := mem_zip_tableOf.mp (hzip ▸ List.mem_append_left _ hpair)
    exact keeps_addFeatures fun c hc => Follows.edit hr hc
  have hg₃ := Edit.Keeps.forM (fun _ _ => keeps_addProperty fun name v =>
    Follows.edit hq (.value name v)) g₁ _ g₃ hg₁ hproperties
  have hf₁ := Edit.Keeps.forM (fun other hother => keeps_addChildren_of_issued
    (hmem other (List.mem_append_left _ hother)) fun c hc _ => Follows.edit hq hc)
    g₃ _ f₁ hg₃ hbefore
  refine ⟨f₁, f₂, hf₁, hentry, fun motive hkeeps hf₂ => ?_⟩
  have hg₄ : motive g₄ := by
    refine Edit.Keeps.forM (fun later hlater => ?_) f₂ _ g₄ hf₂ hafter
    refine keeps_addChildren_of_issued (hmem later (by simp [hlater])) fun c hc hnames => ?_
    exact hkeeps i q c hq hc fun _ name child hcommand =>
      ⟨later, hlater, hnames name child hcommand⟩
  have hg₂ := Edit.Keeps.forM (fun _ _ => keeps_addReference fun name reference =>
    hkeeps i q _ hq (.reference name reference) nofun) g₄ _ g₂ hg₄ hreferences
  refine Edit.Keeps.forM (fun pair hpair => ?_) g₂ _ f hg₂ hrest
  obtain ⟨k, hne, hr, hnode⟩ := hothers pair hpair
  refine keeps_addFeatures fun c hc => ?_
  rw [hnode] at hc
  exact hkeeps k _ c hr hc fun heq => absurd heq hne

/-! ### Accepted documents -/

/-- The record of the identifier is a child of record `i`, in the containment of the given
name. -/
def Contained (d : Document) (f : Forest) (i : Nat) (name id : String) : Prop :=
  ∃ j c, d.records[j]? = some c ∧ c.id = id ∧ f.parent? ⟨j⟩ = some ⟨i⟩ ∧
    ∃ index, f.holder? ⟨j⟩ = some ⟨name, index⟩

/-- A record is a child of another if a slot holds its node. -/
theorem contained_iff (schema : σ) (hf : f.Sound) (hnodup : (d.records.map Record.id).Nodup)
    {name id : String} :
    d.Contained f i name id ↔ ∃ x site, nodeOf? (tableOf schema d.records) id = some x ∧
      site.property.name = name ∧ f.HeldAt ⟨i⟩ site x := by
  constructor
  · rintro ⟨j, c, hc, hid, hparent, index, hholder⟩
    obtain ⟨k, property, s, hholds⟩ := hf.exists_holds hparent
    rw [hholds.holder?_eq hf.wellFormed] at hholder
    refine ⟨⟨j⟩, ⟨k, property⟩, (nodeOf?_tableOf hnodup).mpr ⟨c, hc, hid⟩, ?_, s, hholds.hasSlot,
      hholds.mem⟩
    exact (Path.Step.mk.inj (Option.some.inj hholder)).1
  · rintro ⟨x, site, hnode, rfl, s, hslot, hx⟩
    obtain ⟨c, hc, hid⟩ := (nodeOf?_tableOf hnodup).mp hnode
    have hholds : f.Holds ⟨i⟩ site.index site.property s x := ⟨hslot, hx⟩
    exact ⟨x.index, c, hc, hid, hholds.parent?_eq hf.wellFormed, _,
      hholds.holder?_eq hf.wellFormed⟩

/-- Identifiers with the same node are the same. -/
theorem nodeOf?_injective (hnodup : (records.map Record.id).Nodup) {id id' : String}
    (h : nodeOf? (tableOf schema records) id = some x)
    (h' : nodeOf? (tableOf schema records) id' = some x) : id = id' := by
  obtain ⟨c, hc, rfl⟩ := (nodeOf?_tableOf hnodup).mp h
  obtain ⟨c', hc', rfl⟩ := (nodeOf?_tableOf hnodup).mp h'
  rw [Option.some.inj (hc.symm.trans hc')]

/-- What an entry leads to: a multiple containment has all its children, and a single one has
exactly its children if no later entry names it. -/
theorem contained_of_entry (h : importTree schema m d = .ok (f, root)) {q : Record}
    (hq : d.records[i]? = some q) {before after : List ContainmentEntry}
    {entry : ContainmentEntry} (hchildren : q.children = before ++ entry :: after)
    (hresolved : entry.containment.isResolved = true) {type : String}
    (htype : Schema.toType? schema q.concept = some type) :
    ∃ t p, m.type type = .ok t ∧ t.property? p.name = some p ∧ entry.Names schema type p.name ∧
      (p.kind = .single ∨ p.kind = .multiple) ∧
      (p.kind = .multiple → ∀ id ∈ entry.children, d.Contained f i p.name id) ∧
      (p.kind = .single → m.Built → (∀ later ∈ after, ¬ later.Names schema type p.name) →
        ∀ id, d.Contained f i p.name id ↔ id ∈ entry.children) := by
  obtain ⟨hnodup, hfinal, -⟩ := exists_of_importTree h
  have hsound := hfinal.reachable.sound
  obtain ⟨f₁, f₂, hf₁, hadd, hrest⟩ := exists_around_entry h hq hchildren htype
  obtain ⟨t, p, nodes, ht, hp, hnames, hnodes, hstores⟩ := exists_of_addChildren hresolved hadd
  rw [hf₁.reachable.metamodel_eq] at ht
  have hlists := lists_of_childNodes (hchildren ▸ by simp) hresolved hnodes
  refine ⟨t, p, ht, hp, hnames, hstores.kind_eq, fun hkind id hid => ?_,
    fun hkind hm hlast id => ?_⟩
  · obtain ⟨x, hx, hnode⟩ := exists_mem_childNodes hnodes hid
    obtain ⟨site, hname, hsitekind, hf₂⟩ := hf₁.heldAt_of_stores hq hlists hstores hkind hx
    have hf := hrest _ (fun k r c hr hc _ => hc.keeps_heldAt hr hsitekind) hf₂
    exact (contained_iff schema hsound hnodup).mpr ⟨x, site, hnode, hname, hf.2⟩
  · obtain ⟨site, hname, hsitekind, hf₂⟩ := hf₁.hasSlot_of_stores hq hlists hstores hkind
    have hf := hrest _ (fun k r c hr hc hdue => hc.keeps_hasSlot hr fun haddress => by
      rw [hsitekind] at haddress
      cases hc with
      | value | append | reference => cases haddress
      | child name =>
          -- A command for the same containment would be due to a later entry.
          obtain ⟨hnode, rfl, -⟩ := Address.mk.inj (Option.some.inj haddress)
          obtain rfl : k = i := congrArg NodeId.index hnode
          obtain ⟨later, hlater, hnames'⟩ := hdue rfl _ _ rfl
          exact hlast later hlater (hname ▸ hnames')) hf₂
    rw [contained_iff schema hsound hnodup]
    constructor
    · rintro ⟨x, site', hnode, hname', s, hslot, hx⟩
      obtain rfl := hslot.eq_of_name hf.2 (hfinal.reachable.metamodel_eq ▸ hm)
        (hname'.trans hname.symm)
      rw [hstores.owned_eq hkind] at hx
      obtain ⟨id', hid', hnode'⟩ := exists_id_of_childNodes hnodes hx
      exact nodeOf?_injective hnodup hnode hnode' ▸ hid'
    · intro hid
      obtain ⟨x, hx, hnode⟩ := exists_mem_childNodes hnodes hid
      exact ⟨x, site, hnode, hname, _, hf.2, (hstores.owned_eq hkind).symm ▸ hx⟩

/-- **Where the listed children of accepted documents are.**  Whatever the document, the
metamodel and the schema are: if the document is read without an error, then every entry
with a complete pointer names a containment of the record's type.  If the containment is
multiple, all children of the entry are there.  If it is single, the last entry of the record
that names it decides: exactly the children of that one are there. -/
theorem importTree_contains {σ : Type} [Schema σ] {schema : σ} {m : Metamodel} (hm : m.Built)
    {d : Document} {f : Forest} {root : NodeId} (h : importTree schema m d = .ok (f, root))
    {i : Nat} {q : Record} (hq : d.records[i]? = some q) {entry : ContainmentEntry}
    (hentry : entry ∈ q.children) (hresolved : entry.containment.isResolved = true) :
    ∃ type t p, Schema.toType? schema q.concept = some type ∧ m.type type = .ok t ∧
      t.property? p.name = some p ∧ entry.Names schema type p.name ∧
      ((p.kind = .multiple ∧ ∀ id ∈ entry.children, d.Contained f i p.name id) ∨
        (p.kind = .single ∧ ∃ before last after, q.children = before ++ last :: after ∧
          last.Names schema type p.name ∧ (∀ later ∈ after, ¬ later.Names schema type p.name) ∧
          ∀ id, d.Contained f i p.name id ↔ id ∈ last.children)) := by
  obtain ⟨n, -, htype⟩ := (readAs_of_importTree h).type_eq hq
  obtain ⟨before, after, hchildren⟩ := List.append_of_mem hentry
  obtain ⟨t, p, ht, hp, hnames, hkind, hmultiple, -⟩ :=
    contained_of_entry h hq hchildren hresolved htype
  refine ⟨n.type, t, p, htype, ht, hp, hnames, ?_⟩
  rcases hkind with hsingle | hkind
  · obtain ⟨before, last, after, hchildren, hlast, hafter⟩ :=
      exists_last (motive := fun e => e.Names schema n.type p.name) ⟨entry, hentry, hnames⟩
    obtain ⟨t', p', ht', hp', hnames', -, -, hcontained⟩ :=
      contained_of_entry h hq hchildren hlast.1 htype
    -- Both entries name the same property.
    have hname : p'.name = p.name := Option.some.inj (hnames'.2.symm.trans hlast.2)
    obtain rfl : t = t' := Except.ok.inj (ht.symm.trans ht')
    rw [hname] at hp'
    obtain rfl : p = p' := Option.some.inj (hp.symm.trans hp')
    exact .inr ⟨hsingle, before, last, after, hchildren, hlast, hafter,
      hcontained hsingle hm hafter⟩
  · exact .inl ⟨hkind, hmultiple hkind⟩

/-- The pointers of the language of items. -/
def itemPointer (key : String) : Pointer := ⟨some "items", some "1", some key⟩

/-- The part of the root, and the hidden child that two entries of the last item list. -/
theorem importTree_contains_items :
    ∃ f, importTree itemLanguage itemModel itemDocument = .ok (f, ⟨1⟩) ∧
      itemDocument.Contained f 1 "parts" "b" ∧
      ∀ id, itemDocument.Contained f 2 "shadow" id ↔ id = "c" := by
  have hroot : (importTree itemLanguage itemModel itemDocument).toOption.map Prod.snd =
      some ⟨1⟩ := by decide +kernel
  have hitem : Schema.toType? itemLanguage (itemPointer "items-Item") = some "Item" ∧
      Schema.toProperty? itemLanguage "Item" (itemPointer "parts") = some "parts" ∧
      Schema.toProperty? itemLanguage "Item" (itemPointer "shadow") = some "shadow" := by
    decide +kernel
  have hkinds : (itemModel.type "Item").toOption.map (fun t =>
      ((t.property? "parts").map Property.kind, (t.property? "shadow").map Property.kind)) =
      some (some .multiple, some .single) := by decide +kernel
  obtain ⟨⟨f, _⟩, h, rfl⟩ := exists_of_toOption hroot
  obtain ⟨t, ht, hkinds⟩ := exists_of_toOption hkinds
  obtain ⟨hparts, hshadow⟩ := Prod.mk.inj hkinds
  have hpart : (⟨itemPointer "parts", ["b"]⟩ : ContainmentEntry) ∈
      itemDocument.records[1].children := by decide
  have hhidden : (⟨itemPointer "shadow", ["c"]⟩ : ContainmentEntry) ∈
      itemDocument.records[2].children := by decide
  have hchildren : ∀ entry ∈ itemDocument.records[2].children, entry.children = ["c"] := by decide
  refine ⟨f, h, ?_, fun id => ?_⟩
  · obtain ⟨type, t', p, htype, ht', hp, hnames, hcontained⟩ :=
      importTree_contains itemModel_built h (i := 1) rfl hpart rfl
    obtain rfl := Option.some.inj (htype.symm.trans hitem.1)
    obtain rfl : t = t' := Except.ok.inj (ht.symm.trans ht')
    have hname := Option.some.inj (hnames.2.symm.trans hitem.2.1)
    rw [hname] at hp hcontained
    rw [hp] at hparts
    rcases hcontained with ⟨-, hcontained⟩ | ⟨hsingle, -⟩
    · exact hcontained "b" List.mem_cons_self
    · rw [Option.map_some, hsingle] at hparts
      cases hparts
  · obtain ⟨type, t', p, htype, ht', hp, hnames, hcontained⟩ :=
      importTree_contains itemModel_built h (i := 2) rfl hhidden rfl
    obtain rfl := Option.some.inj (htype.symm.trans hitem.1)
    obtain rfl : t = t' := Except.ok.inj (ht.symm.trans ht')
    have hname := Option.some.inj (hnames.2.symm.trans hitem.2.2)
    rw [hname] at hp hcontained
    rw [hp] at hshadow
    rcases hcontained with ⟨hmultiple, -⟩ | ⟨-, before, last, after, hsplit, -, -, hcontained⟩
    · rw [Option.map_some, hmultiple] at hshadow
      cases hshadow
    · have hlast : last ∈ itemDocument.records[2].children := hsplit ▸ by simp
      rw [hcontained, hchildren last hlast, List.mem_singleton]

/-- The root lists its first child for a single containment, replaces it there, and takes it
back as a part. -/
def itemDocumentReplacing : Document where
  records :=
    [{ id := "a", concept := itemPointer "items-Item"
       children := [⟨itemPointer "body", ["b"]⟩, ⟨itemPointer "body", ["c"]⟩,
         ⟨itemPointer "parts", ["b"]⟩] },
     { id := "b", concept := itemPointer "items-Item", parent := some "a" },
     { id := "c", concept := itemPointer "items-Item", parent := some "a" }]

/-- **A listed child that is elsewhere.**  The document is accepted although the child of
the first entry is not in the containment that the entry names. -/
theorem importTree_drops_child :
    ∃ f q entry, importTree itemLanguage itemModel itemDocumentReplacing = .ok (f, ⟨0⟩) ∧
      itemDocumentReplacing.records[0]? = some q ∧ entry ∈ q.children ∧
      entry.Names itemLanguage "Item" "body" ∧ "b" ∈ entry.children ∧
      f.holder? ⟨1⟩ = some ⟨"parts", some 0⟩ ∧
      ¬ itemDocumentReplacing.Contained f 0 "body" "b" := by
  have hroot : (importTree itemLanguage itemModel itemDocumentReplacing).toOption.map
      (fun result => (result.2, result.1.holder? ⟨1⟩)) =
      some (⟨0⟩, some ⟨"parts", some 0⟩) := by decide +kernel
  obtain ⟨⟨f, root⟩, h, heq⟩ := exists_of_toOption hroot
  obtain ⟨rfl, hholder⟩ := Prod.mk.inj heq
  refine ⟨f, _, _, h, rfl, List.mem_cons_self, ⟨rfl, by decide +kernel⟩, List.mem_cons_self,
    hholder, ?_⟩
  rintro ⟨j, c, hc, hid, -, index, hbody⟩
  have hplace : (itemDocumentReplacing.records.map Record.id)[j]? = some "b" := by
    rw [List.getElem?_map, hc, Option.map_some, hid]
  have hunique : ∀ j < 3, (itemDocumentReplacing.records.map Record.id)[j]? = some "b" → j = 1 := by
    decide
  obtain rfl := hunique j (List.getElem?_eq_some_iff.mp hc).1 hplace
  rw [hbody] at hholder
  simp at hholder

end Document

end TypedForest
