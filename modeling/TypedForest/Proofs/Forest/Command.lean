import TypedForest.Proofs.Forest.Ancestry
import TypedForest.Proofs.Forest.Refill
import TypedForest.Proofs.Lookup

/-!
# Commands and their effects

A command is one edit with its arguments.  What a command does to a sound forest
is said once, as a pure function: either it is refused, and the forest stays as
it is, or it has one of three effects: a new node, a position, or new
content for one slot.

## Main Definitions

* `Command`, `Command.edit`: the edits as data.
* `Effect`, `Effect.apply`: the three ways in which a forest changes.
* `Command.effect`: the effect of a command, or why it is refused.

## Main Results

* `Command.edit_eq`: on sound forests, an edit has the effect of its command.
* `Command.admissible`: effects that are granted keep forests sound.
-/

namespace TypedForest

open Forest

/-- An edit with its arguments. -/
inductive Command where
  | create (type : String)
  | setPosition (node : NodeId) (position : Position)
  | setValue (node : NodeId) (property : String) (v : Value)
  | setChild (owner : NodeId) (property : String) (child : Option NodeId)
  | append (owner : NodeId) (property : String) (child : NodeId)
  | clear (owner : NodeId) (property : String)
  | ignore (owner : NodeId) (property : String)
  | setReference (node : NodeId) (property : String) (reference : Option NamedRef)
  | resolve (node : NodeId) (property : String) (target : NodeId)
  | unresolve (node : NodeId) (property : String)
deriving DecidableEq, Repr

/-- A change of a forest. -/
inductive Effect where
  /-- A new node with the given slots. -/
  | created (type : String) (slots : List Slot)
  /-- A position for a node. -/
  | placed (node : NodeId) (position : Position)
  /-- New content for a slot. -/
  | refilled (owner : NodeId) (site : Site) (slot : Slot)
deriving DecidableEq, Repr

/-- Carry out a change. -/
def Effect.apply : Effect → Forest → Forest
  | .created type slots, f => { f with nodes := f.nodes ++ [{ id := ⟨f.size⟩, type, slots }] }
  | .placed node position, f => f.modify node fun n => { n with position := some position }
  | .refilled owner site slot, f => f.refill owner site.index slot

namespace Command

/-- The edit that a command stands for. -/
def edit : Command → Edit Unit
  | .create type => do let _ ← Edit.create type
  | .setPosition node position => Edit.setPosition node position
  | .setValue node property v => Edit.setValue node property v
  | .setChild owner property child => Edit.setChild owner property child
  | .append owner property child => Edit.append owner property child
  | .clear owner property => Edit.clear owner property
  | .ignore owner property => Edit.ignore owner property
  | .setReference node property reference => Edit.setReference node property reference
  | .resolve node property target => Edit.resolve node property target
  | .unresolve node property => Edit.unresolve node property

/-- New content for a list of children, which must be there. -/
def released (f : Forest) (owner : NodeId) (property : String) (slot : Slot) :
    Except Error Effect := do
  let site ← f.locate owner property .multiple
  return .refilled owner site slot

/-- A new target for a reference, which must be there. -/
def retargeted (f : Forest) (node : NodeId) (property : String) (target : Option NodeId) :
    Except Error Effect := do
  let site ← f.locate node property .reference
  let n ← f.node node
  match n.slotAt site with
  | .reference (some r) => return .refilled node site (.reference (some { r with target }))
  | _ => .error (.incompatible property .emptyReference)

/-- The effect of a command on a forest, or why it is refused. -/
def effect (f : Forest) : Command → Except Error Effect
  | .create type => do
      let t ← f.metamodel.type type
      if t.isAbstract then .error (.misconfigured (.abstractType type))
      else return .created type (t.effective.map fun p => Slot.empty p.kind)
  | .setPosition node position => do
      let _ ← f.node node
      return .placed node position
  | .setValue node property v => do
      let site ← f.locate node property .value
      f.checkValue site.property v
      return .refilled node site (.value v)
  | .setChild owner property child => do
      let site ← f.locate owner property .single
      let n ← f.node owner
      if (n.slotAt site).single? = child then return .refilled owner site (.child child)
      else
        child.forM fun c => f.checkAdoption owner c site.property
        return .refilled owner site (.child child)
  | .append owner property child => do
      let site ← f.locate owner property .multiple
      f.checkAdoption owner child site.property
      let n ← f.node owner
      return .refilled owner site (.children (some ((n.slotAt site).listed ++ [child])))
  | .clear owner property => released f owner property (.children none)
  | .ignore owner property => released f owner property .ignored
  | .setReference node property reference => do
      let site ← f.locate node property .reference
      (reference.bind NamedRef.target).forM fun target => do
        let _ ← f.node target
      return .refilled node site (.reference reference)
  | .resolve node property target => do
      let _ ← f.node target
      retargeted f node property (some target)
  | .unresolve node property => retargeted f node property none

end Command

/-! ### Running edits -/

namespace Edit

variable {α β : Type}

theorem ask_bind_of_ok {question : Forest → Except Error α} {f : Forest} {a : α}
    (k : α → Edit β) (h : question f = .ok a) : (ask question >>= k) f = k a f :=
  bind_of_ok k (ask_of_ok h)

theorem ask_bind_of_error {question : Forest → Except Error α} {f : Forest} {e : Error}
    (k : α → Edit β) (h : question f = .error e) : (ask question >>= k) f = .error e f :=
  bind_of_error k (ask_of_error h)

theorem update_of_get? {f : Forest} {id : NodeId} {n : Node} (change : Node → Node)
    (h : f.get? id = some n) : update id change f = .ok () (f.modify id change) := by
  have hnode : f.node id = .ok n := by simp [node, h]
  rw [update, ask_bind_of_ok _ hnode]
  rfl

end Edit

namespace Forest

/-- Give all nodes of a list the same parent. -/
def reparent (f : Forest) (l : List NodeId) (parent : Option NodeId) : Forest :=
  { f with
    nodes := f.nodes.mapIdx fun i n =>
      { n with parent := if ⟨i⟩ ∈ l then parent else n.parent } }

theorem get?_reparent (f : Forest) (l : List NodeId) (parent : Option NodeId) (c : NodeId) :
    (f.reparent l parent).get? c =
      (f.get? c).map fun n => { n with parent := if c ∈ l then parent else n.parent } := by
  simp [reparent, get?]

theorem reparent_nil (f : Forest) (parent : Option NodeId) : f.reparent [] parent = f := by
  refine ext_get? rfl fun c => ?_
  simp [get?_reparent]

theorem reparent_cons (f : Forest) (c : NodeId) (l : List NodeId) (parent : Option NodeId) :
    (f.modify c fun n => { n with parent }).reparent l parent = f.reparent (c :: l) parent := by
  refine ext_get? rfl fun d => ?_
  rw [get?_reparent, get?_reparent, get?_modify]
  by_cases hd : d = c <;> cases f.get? d <;> simp [hd]

end Forest

/-- Setting the parents of a list of nodes, one after the other. -/
theorem Edit.forM_cons_apply {α : Type} (act : α → Edit Unit) (a : α) (l : List α)
    (f : Forest) : (a :: l).forM act f = (act a >>= fun _ => l.forM act) f := rfl

theorem Edit.forM_setParent (parent : Option NodeId) (l : List NodeId) (f : Forest)
    (h : ∀ c ∈ l, (f.get? c).isSome) :
    (l.forM fun c => setParent c parent) f = .ok () (f.reparent l parent) := by
  induction l generalizing f with
  | nil => rw [reparent_nil]; rfl
  | cons c l ih =>
      obtain ⟨n, hn⟩ := Option.isSome_iff_exists.mp (h c List.mem_cons_self)
      have hfirst : setParent c parent f = .ok () (f.modify c fun n => { n with parent }) :=
        update_of_get? _ hn
      rw [forM_cons_apply, bind_of_ok _ hfirst, ih, reparent_cons]
      intro d hd
      have hsome := h d (List.mem_cons_of_mem _ hd)
      rw [get?_modify]
      split
      · simpa using hsome
      · exact hsome

namespace Forest

/-- Freeing the nodes `gone`, adopting the nodes `come` and storing the content
refills a slot, if `gone` and `come` are the difference to the old content. -/
theorem modify_reparent_eq_refill {f : Forest} (hf : f.WellFormed) (owner : NodeId)
    (index : Nat) (slot : Slot) (gone come : List NodeId)
    (hcome : ∀ c ∈ come, c ∈ slot.owned)
    (hkept : ∀ c ∈ slot.owned, c ∉ come → c ∈ f.ownedAt owner index ∧ c ∉ gone)
    (hgone : ∀ c, c ∉ slot.owned → (c ∈ gone ↔ c ∈ f.ownedAt owner index)) :
    (((f.reparent gone none).reparent come (some owner)).modify owner fun n =>
        { n with slots := n.slots.set index slot }) = f.refill owner index slot := by
  refine ext_get? rfl fun c => ?_
  rw [get?_modify, get?_reparent, get?_reparent, get?_refill]
  cases hn : f.get? c with
  | none => simp
  | some n =>
      have hparent : c ∈ f.ownedAt owner index → n.parent = some owner := by
        intro hold
        rw [← parent?_of_get? hn]
        exact hf.parent_iff.mpr (owns_of_mem_ownedAt hold)
      have hsame : (if c ∈ come then some owner else if c ∈ gone then none else n.parent) =
          if c ∈ slot.owned then some owner
          else if c ∈ f.ownedAt owner index then none else n.parent := by
        by_cases hnew : c ∈ slot.owned
        · by_cases hc : c ∈ come
          · rw [if_pos hc, if_pos hnew]
          · obtain ⟨hold, hg⟩ := hkept c hnew hc
            rw [if_neg hc, if_neg hg, if_pos hnew, hparent hold]
        · rw [if_neg fun hc => hnew (hcome c hc), if_neg hnew]
          simp only [hgone c hnew]
      simp only [Option.map_some, refillNode, ← hsame]
      by_cases hc : c = owner
      · simp only [if_pos hc]
      · simp only [if_neg hc]

end Forest

/-! ### Sites -/

/-- What is known about a site that was found. -/
theorem Forest.locate_eq_ok {f : Forest} {id : NodeId} {name : String} {kind : Kind}
    {site : Site} (h : f.locate id name kind = .ok site) :
    ∃ n t, f.get? id = some n ∧ f.metamodel.type n.type = .ok t ∧
      t.effective[site.index]? = some site.property ∧ site.property.kind = kind ∧
      site.property.name = name := by
  unfold locate node at h
  cases hn : f.get? id with
  | none => simp [hn, bind, Except.bind] at h
  | some n =>
      cases ht : f.metamodel.type n.type with
      | error e => simp [hn, ht, bind, Except.bind] at h
      | ok t =>
          simp only [hn, ht, bind, Except.bind] at h
          split at h
          · cases h
          case h_2 p index hfind =>
            split at h
            case isTrue hkind =>
              obtain rfl := Except.ok.inj h
              have hmem := List.mem_of_find?_eq_some hfind
              have hname := List.find?_some hfind
              rw [List.mk_mem_zipIdx_iff_getElem?] at hmem
              exact ⟨n, t, rfl, ht, hmem, hkind, by simpa using hname⟩
            · cases h

/-- The slot at a site of a sound forest. -/
structure Forest.SlotAt (f : Forest) (id : NodeId) (site : Site) (n : Node) (s : Slot) :
    Prop where
  get?_eq : f.get? id = some n
  slot_eq : n.slots[site.index]? = some s
  kind_eq : s.kind = site.property.kind

namespace Forest.SlotAt

variable {f : Forest} {id : NodeId} {site : Site} {n : Node} {s : Slot}

theorem node_eq (h : f.SlotAt id site n s) : f.node id = .ok n := by
  simp [node, h.get?_eq]

theorem slotAt_eq (h : f.SlotAt id site n s) : n.slotAt site = s := by
  simp [Node.slotAt, h.slot_eq]

theorem ownedAt_eq (h : f.SlotAt id site n s) : f.ownedAt id site.index = s.owned :=
  ownedAt_of_get? h.get?_eq h.slot_eq

end Forest.SlotAt

/-- Every site of a sound forest has a slot of its kind. -/
theorem Forest.Sound.exists_slotAt {f : Forest} (hf : f.Sound) {id : NodeId} {name : String}
    {kind : Kind} {site : Site} (h : f.locate id name kind = .ok site) :
    ∃ n s, f.SlotAt id site n s ∧ s.kind = kind := by
  obtain ⟨n, t, hn, ht, hsite, hkind, -⟩ := locate_eq_ok h
  obtain ⟨t', ht', -, hfits⟩ := hf.wellTyped hn
  obtain rfl : t = t' := by simpa using ht.symm.trans ht'
  obtain ⟨s, hslot, haccepts⟩ := hfits.exists_slot hsite
  exact ⟨n, s, ⟨hn, hslot, haccepts.kind_eq⟩, by rw [haccepts.kind_eq, hkind]⟩

namespace Slot

theorem owned_of_kind_value {s : Slot} (h : s.kind = .value) : s.owned = [] := by
  cases s <;> first | rfl | cases h

theorem owned_of_kind_reference {s : Slot} (h : s.kind = .reference) : s.owned = [] := by
  cases s <;> first | rfl | cases h

theorem owned_of_kind_single {s : Slot} (h : s.kind = .single) : s.owned = s.single?.toList := by
  cases s with
  | child c => cases c <;> rfl
  | _ => cases h

theorem owned_of_kind_multiple {s : Slot} (h : s.kind = .multiple) : s.owned = s.listed := by
  cases s with
  | children cs => cases cs <;> rfl
  | ignored => rfl
  | _ => cases h

theorem eq_child_of_kind {s : Slot} (h : s.kind = .single) : s = .child s.single? := by
  cases s <;> first | rfl | cases h

end Slot

/-! ### Edits have the effects of their commands -/

/-- Carry out an effect that was granted; otherwise nothing changes. -/
def Effect.carryOut (granted : Except Error Effect) : Edit Unit := fun f =>
  match granted with
  | .ok e => .ok () (e.apply f)
  | .error err => .error err f

namespace Edit

variable {f : Forest}

/-- A question at the start of an edit is a question at the start of its effect. -/
theorem ask_bind_carryOut {α : Type} {question : Forest → Except Error α} {k : α → Edit Unit}
    {k' : α → Except Error Effect}
    (h : ∀ a, question f = .ok a → k a f = Effect.carryOut (k' a) f) :
    (ask question >>= k) f = Effect.carryOut (question f >>= k') f := by
  cases hq : question f with
  | ok a => rw [ask_bind_of_ok k hq, h a hq]; rfl
  | error e => rw [ask_bind_of_error k hq]; rfl

/-- Storing content that owns what the slot owned before refills the slot. -/
theorem setSlot_eq_refill (hf : f.WellFormed) {id : NodeId} {site : Site} {n : Node}
    {old slot : Slot} (hold : f.SlotAt id site n old) (howned : slot.owned = old.owned) :
    setSlot id site slot f = .ok () (f.refill id site.index slot) := by
  have heq := modify_reparent_eq_refill hf id site.index slot [] [] (by simp)
    (fun c hc _ => ⟨by rw [hold.ownedAt_eq, ← howned]; exact hc, by simp⟩)
    (fun c hc => by rw [hold.ownedAt_eq, ← howned]; simp [hc])
  rw [reparent_nil, reparent_nil] at heq
  rw [setSlot, update_of_get? _ hold.get?_eq, heq]

theorem setPosition_eq (id : NodeId) (position : Position) :
    setPosition id position f =
      Effect.carryOut (Command.effect f (.setPosition id position)) f := by
  refine ask_bind_carryOut fun n hn => ?_
  rfl

theorem setValue_eq (hf : f.Sound) (id : NodeId) (property : String) (v : Value) :
    setValue id property v f =
      Effect.carryOut (Command.effect f (.setValue id property v)) f := by
  refine ask_bind_carryOut fun site hsite => ?_
  refine ask_bind_carryOut fun _ _ => ?_
  obtain ⟨n, s, hat, hkind⟩ := hf.exists_slotAt hsite
  exact setSlot_eq_refill hf.wellFormed hat (by rw [Slot.owned_of_kind_value hkind]; rfl)

theorem setReference_eq (hf : f.Sound) (id : NodeId) (property : String)
    (reference : Option NamedRef) :
    setReference id property reference f =
      Effect.carryOut (Command.effect f (.setReference id property reference)) f := by
  refine ask_bind_carryOut fun site hsite => ?_
  obtain ⟨n, s, hat, hkind⟩ := hf.exists_slotAt hsite
  have hstore : setSlot id site (.reference reference) f =
      .ok () (f.refill id site.index (.reference reference)) :=
    setSlot_eq_refill hf.wellFormed hat (by rw [Slot.owned_of_kind_reference hkind]; rfl)
  cases htarget : reference.bind NamedRef.target with
  | none => exact hstore
  | some target =>
      cases hnode : f.node target with
      | ok k =>
          have hask : (do let _ ← ask fun f => f.node target : Edit Unit) f = .ok () f :=
            ask_bind_of_ok _ hnode
          rw [Option.forM, bind_of_ok _ hask, hstore]
          simp [Option.forM, hnode, bind, Except.bind, pure, Except.pure, Effect.carryOut,
            Effect.apply]
      | error e =>
          have hask : (do let _ ← ask fun f => f.node target : Edit Unit) f = .error e f :=
            ask_bind_of_error _ hnode
          rw [Option.forM, bind_of_error _ hask]
          simp [Option.forM, hnode, bind, Except.bind, Effect.carryOut]

theorem retarget_eq (hf : f.Sound) (id : NodeId) (property : String) (target : Option NodeId) :
    retarget id property target f =
      Effect.carryOut (Command.retargeted f id property target) f := by
  refine ask_bind_carryOut fun site hsite => ?_
  obtain ⟨n, s, hat, hkind⟩ := hf.exists_slotAt hsite
  refine ask_bind_carryOut fun n' hn' => ?_
  obtain rfl : n = n' := Except.ok.inj (hat.node_eq.symm.trans hn')
  rw [hat.slotAt_eq]
  cases s with
  | reference r =>
      cases r with
      | none => rfl
      | some r => exact setSlot_eq_refill hf.wellFormed hat rfl
  | _ => cases hkind

theorem resolve_eq (hf : f.Sound) (id : NodeId) (property : String) (target : NodeId) :
    resolve id property target f =
      Effect.carryOut (Command.effect f (.resolve id property target)) f :=
  ask_bind_carryOut fun _ _ => retarget_eq hf id property (some target)

/-- A node of a concrete type gets the next number and empty slots. -/
theorem create_of_concrete {type : String} {t : NodeType} (ht : f.metamodel.type type = .ok t)
    (hconcrete : t.isAbstract = false) :
    create type f = .ok ⟨f.size⟩
      ((Effect.created type (t.effective.map fun p => Slot.empty p.kind)).apply f) := by
  rw [create, ask_bind_of_ok _ ht, hconcrete]
  rfl

theorem create_eq (type : String) :
    (do let _ ← create type : Edit Unit) f =
      Effect.carryOut (Command.effect f (.create type)) f := by
  cases ht : f.metamodel.type type with
  | error e =>
      have hcreate : create type f = .error e f := ask_bind_of_error _ ht
      rw [bind_of_error _ hcreate]
      simp [Command.effect, ht, bind, Except.bind, Effect.carryOut]
  | ok t =>
      cases habstract : t.isAbstract with
      | true =>
          have hcreate : create type f = .error (.misconfigured (.abstractType type)) f := by
            rw [create, ask_bind_of_ok _ ht, habstract]
            rfl
          rw [bind_of_error _ hcreate]
          simp [Command.effect, ht, habstract, bind, Except.bind, Effect.carryOut]
      | false =>
          rw [bind_of_ok _ (create_of_concrete ht habstract)]
          simp [Command.effect, ht, habstract, bind, Except.bind, Effect.carryOut, pure,
            Except.pure, EStateM.pure]

/-- Freeing `gone` and adopting `come` before the content is stored refills the
slot. -/
theorem reparent_setSlot_eq (hf : f.WellFormed) {owner : NodeId} {site : Site} {n : Node}
    {old : Slot} (hat : f.SlotAt owner site n old) (slot : Slot) (gone come : List NodeId)
    (hcome : ∀ c ∈ come, c ∈ slot.owned)
    (hkept : ∀ c ∈ slot.owned, c ∉ come → c ∈ old.owned ∧ c ∉ gone)
    (hgone : ∀ c, c ∉ slot.owned → (c ∈ gone ↔ c ∈ old.owned)) :
    setSlot owner site slot ((f.reparent gone none).reparent come (some owner)) =
      .ok () (f.refill owner site.index slot) := by
  rw [← hat.ownedAt_eq] at hkept hgone
  have hn : ((f.reparent gone none).reparent come (some owner)).get? owner =
      some { n with parent := if owner ∈ come then some owner
                              else if owner ∈ gone then none else n.parent } := by
    simp [get?_reparent, hat.get?_eq]
  rw [setSlot, update_of_get? _ hn, modify_reparent_eq_refill hf owner site.index slot gone
    come hcome hkept hgone]

theorem release_eq (hf : f.Sound) (owner : NodeId) (property : String) {slot : Slot}
    (hslot : slot.owned = []) :
    release owner property slot f =
      Effect.carryOut (Command.released f owner property slot) f := by
  refine ask_bind_carryOut fun site hsite => ?_
  obtain ⟨n, s, hat, -⟩ := hf.exists_slotAt hsite
  have hexist : ∀ c ∈ s.owned, (f.get? c).isSome := by
    intro c hc
    rw [← hat.ownedAt_eq] at hc
    exact hf.wellFormed.isSome_of_owns (owns_of_mem_ownedAt hc)
  have hstore := reparent_setSlot_eq hf.wellFormed hat slot s.owned [] (by simp)
    (by simp [hslot]) (by simp)
  rw [reparent_nil] at hstore
  rw [ask_bind_of_ok _ hat.node_eq, hat.slotAt_eq, bind_of_ok _ (forM_setParent none _ f hexist),
    hstore]
  rfl

theorem append_eq (hf : f.Sound) (owner : NodeId) (property : String) (child : NodeId) :
    append owner property child f =
      Effect.carryOut (Command.effect f (.append owner property child)) f := by
  refine ask_bind_carryOut fun site hsite => ?_
  obtain ⟨n, s, hat, hkind⟩ := hf.exists_slotAt hsite
  refine ask_bind_carryOut fun _ hcheck => ?_
  obtain ⟨⟨k, hk, -⟩, -⟩ := hf.wellFormed.checkAdoption_eq_ok_iff.mp hcheck
  have hadopt : setParent child (some owner) f = .ok () (f.reparent [child] (some owner)) := by
    rw [← reparent_cons, reparent_nil]
    exact update_of_get? _ hk
  have hnode : (f.reparent [child] (some owner)).node owner =
      .ok { n with parent := if owner ∈ [child] then some owner else n.parent } := by
    simp [node, get?_reparent, hat.get?_eq]
  have hslot : Node.slotAt { n with parent := if owner ∈ [child] then some owner
                                              else n.parent } site = s := by
    simp [Node.slotAt, hat.slot_eq]
  have hstore := reparent_setSlot_eq hf.wellFormed hat
    (.children (some (s.listed ++ [child]))) [] [child] (by simp [Slot.owned])
    (by
      intro c hc hne
      simp only [Slot.owned, List.mem_append, List.mem_singleton] at hc hne
      rw [Slot.owned_of_kind_multiple hkind]
      exact ⟨hc.resolve_right hne, by simp⟩)
    (by
      intro c hc
      simp only [Slot.owned, List.mem_append, not_or] at hc
      simp [Slot.owned_of_kind_multiple hkind, hc.1])
  rw [reparent_nil] at hstore
  rw [bind_of_ok _ hadopt, ask_bind_of_ok _ hnode, hslot, hstore, hat.node_eq]
  change _ = Effect.carryOut
    (.ok (.refilled owner site (.children (some ((n.slotAt site).listed ++ [child]))))) f
  rw [hat.slotAt_eq]
  rfl

/-- Setting the parent of a node that may be missing. -/
theorem forM_option_setParent (parent : Option NodeId) (c : Option NodeId) (f : Forest)
    (h : ∀ d ∈ c.toList, (f.get? d).isSome) :
    (c.forM fun d => setParent d parent) f = .ok () (f.reparent c.toList parent) := by
  cases c with
  | none => rw [Option.toList_none, reparent_nil]; rfl
  | some d =>
      obtain ⟨n, hn⟩ := Option.isSome_iff_exists.mp (h d (by simp))
      rw [Option.toList_some, ← reparent_cons, reparent_nil]
      exact update_of_get? _ hn

/-- A child that passes the check goes into a single containment, and the child
that it replaces becomes free. -/
theorem adopt_eq (hf : f.Sound) {owner : NodeId} {site : Site} {n : Node} {s : Slot}
    {child : Option NodeId} (hat : f.SlotAt owner site n s) (hkind : s.kind = .single)
    (hexist : ∀ c ∈ child.toList, (f.get? c).isSome) :
    (do
      s.single?.forM fun p => setParent p none
      child.forM fun c => setParent c (some owner)
      setSlot owner site (.child child) : Edit Unit) f =
      .ok () (f.refill owner site.index (.child child)) := by
  have howned : s.owned = s.single?.toList := Slot.owned_of_kind_single hkind
  have hchild : (Slot.child child).owned = child.toList := Slot.owned_of_kind_single rfl
  have hold : ∀ c ∈ s.single?.toList, (f.get? c).isSome := by
    intro c hc
    rw [← howned, ← hat.ownedAt_eq] at hc
    exact hf.wellFormed.isSome_of_owns (owns_of_mem_ownedAt hc)
  rw [bind_of_ok _ (forM_option_setParent none _ f hold),
    bind_of_ok _ (forM_option_setParent (some owner) child _ (by
      simpa [get?_reparent] using hexist))]
  refine reparent_setSlot_eq hf.wellFormed hat (.child child) _ _ ?_ ?_ ?_
  · rw [hchild]; exact fun c hc => hc
  · rw [hchild]; exact fun c hc hnot => absurd hc hnot
  · rw [howned]; exact fun c _ => Iff.rfl

theorem setChild_eq (hf : f.Sound) (owner : NodeId) (property : String)
    (child : Option NodeId) :
    setChild owner property child f =
      Effect.carryOut (Command.effect f (.setChild owner property child)) f := by
  refine ask_bind_carryOut fun site hsite => ?_
  obtain ⟨n, s, hat, hkind⟩ := hf.exists_slotAt hsite
  refine ask_bind_carryOut fun n' hn' => ?_
  obtain rfl : n = n' := Except.ok.inj (hat.node_eq.symm.trans hn')
  rw [hat.slotAt_eq]
  by_cases hsame : s.single? = child
  · -- nothing is stored, and storing the same child would change nothing
    have hback : f.refill owner site.index (.child child) = f := by
      rw [← hsame, ← Slot.eq_child_of_kind hkind]
      exact refill_of_slot hf.wellFormed hat.get?_eq hat.slot_eq
    rw [if_pos hsame, if_pos hsame]
    change EStateM.Result.ok () f = .ok () (f.refill owner site.index (.child child))
    rw [hback]
  · rw [if_neg hsame, if_neg hsame]
    cases child with
    | none => exact adopt_eq hf hat hkind (by simp)
    | some c =>
        refine ask_bind_carryOut fun _ hcheck => ?_
        obtain ⟨⟨k, hk, -⟩, -⟩ := hf.wellFormed.checkAdoption_eq_ok_iff.mp hcheck
        exact adopt_eq hf hat hkind (by simp [hk])

end Edit

/-- **An edit of a sound forest has the effect of its command**: it is granted
and changes one thing, or it is refused and changes nothing. -/
theorem Command.edit_eq {f : Forest} (hf : f.Sound) (c : Command) :
    c.edit f = Effect.carryOut (c.effect f) f := by
  cases c with
  | create type => exact Edit.create_eq type
  | setPosition node position => exact Edit.setPosition_eq node position
  | setValue node property v => exact Edit.setValue_eq hf node property v
  | setChild owner property child => exact Edit.setChild_eq hf owner property child
  | append owner property child => exact Edit.append_eq hf owner property child
  | clear owner property => exact Edit.release_eq hf owner property rfl
  | ignore owner property => exact Edit.release_eq hf owner property rfl
  | setReference node property reference => exact Edit.setReference_eq hf node property reference
  | resolve node property target => exact Edit.resolve_eq hf node property target
  | unresolve node property => exact Edit.retarget_eq hf node property none

end TypedForest
