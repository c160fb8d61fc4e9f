import TypedForest.Proofs.Forest.Command
import TypedForest.Proofs.Lookup

/-!
# Runs of commands

A forest is reachable if a list of commands leads to it from the empty forest.
Commands that are refused may occur anywhere in the list.  Every reachable forest
is sound, so whatever is proved of sound forests holds after every run.

## Main Definitions

* `Command.perform`, `Forest.run`: one command, and a list of them.
* `Forest.Reachable`: the forests that runs lead to.

## Main Results

* `Effect.sound_apply`: what one step preserves.
* `Forest.sound_run`: what a run preserves.
* `Forest.run_agreement`: after every run, numbers, slots, references and parents
  agree and containment is a forest.
-/

namespace TypedForest

open Forest

/-! ### Granted effects -/

/-- Effects that keep a forest sound. -/
def Effect.Admissible (f : Forest) : Effect → Prop
  | .created type slots =>
      ∃ t, f.metamodel.type type = .ok t ∧ t.isAbstract = false ∧
        slots = t.effective.map fun p => Slot.empty p.kind
  | .placed node _ => (f.get? node).isSome
  | .refilled owner site slot => f.Admits owner site slot

namespace Forest

variable {f : Forest} {id : NodeId} {name : String} {kind : Kind} {site : Site} {slot : Slot}

/-- Content that owns no nodes is admitted if it is of the right kind and passes
the checks. -/
theorem Admits.of_owned_nil (hsite : f.locate id name kind = .ok site)
    (hkind : slot.kind = kind) (howned : slot.owned = [])
    (hvalue : ∀ v, slot = .value v → f.checkValue site.property v = .ok ())
    (htarget : ∀ t, slot.target? = some t → (f.get? t).isSome) :
    f.Admits id site slot := by
  obtain ⟨n, t, hn, ht, hmem, hkind', -⟩ := locate_eq_ok hsite
  exact
    { site_mem := ⟨n, t, hn, ht, hmem⟩
      kind_eq := hkind.trans hkind'.symm
      value_ok := hvalue
      nodup := by simp [howned]
      adoptable := by simp [howned]
      target_mem := htarget }

theorem node_eq_ok {n : Node} : f.node id = .ok n ↔ f.get? id = some n := by
  unfold node
  cases f.get? id <;> simp

/-- A child that is there or passes the check is admitted by a single
containment. -/
theorem Admits.of_child {child : Option NodeId} (hsite : f.locate id name .single = .ok site)
    (hchild : ∀ c, child = some c → c ∈ f.ownedAt id site.index ∨
      f.Adoptable id site.property c) : f.Admits id site (.child child) := by
  obtain ⟨n, t, hn, ht, hmem, hkind, -⟩ := locate_eq_ok hsite
  exact
    { site_mem := ⟨n, t, hn, ht, hmem⟩
      kind_eq := hkind.symm
      value_ok := by simp
      nodup := by cases child <;> simp [Slot.owned]
      adoptable := by
        intro c hc hold
        cases child with
        | none => simp [Slot.owned] at hc
        | some d =>
            obtain rfl : c = d := by simpa [Slot.owned] using hc
            exact (hchild c rfl).resolve_left hold
      target_mem := by simp [Slot.target?] }

/-- A child that passes the check may be appended to a list. -/
theorem Admits.of_append (hf : f.Sound) {n : Node} {child : NodeId}
    (hsite : f.locate id name .multiple = .ok site) (hn : f.get? id = some n)
    (hchild : f.Adoptable id site.property child) :
    f.Admits id site (.children (some ((n.slotAt site).listed ++ [child]))) := by
  obtain ⟨n', s, hat, hkind⟩ := hf.exists_slotAt hsite
  obtain rfl : n = n' := Option.some.inj (hn.symm.trans hat.get?_eq)
  obtain ⟨-, t, -, ht, hmem, hkind', -⟩ := locate_eq_ok hsite
  have hlisted : (n.slotAt site).listed = s.owned := by
    rw [hat.slotAt_eq, Slot.owned_of_kind_multiple hkind]
  have hnew : child ∉ s.owned := by
    intro hold
    rw [← hat.ownedAt_eq] at hold
    obtain ⟨k, hk, hfree, -⟩ := hchild.free
    have hparent := hf.wellFormed.parent_iff.mpr (owns_of_mem_ownedAt hold)
    rw [parent?_of_get? hk, hfree] at hparent
    cases hparent
  have hnodup : s.owned.Nodup :=
    (Node.nodup_owned_iff.mp (hf.wellFormed.nodup hn)).1 hat.slot_eq
  rw [hlisted]
  exact
    { site_mem := (locate_eq_ok hsite).imp fun n ⟨t, hn, ht, hmem, _⟩ => ⟨t, hn, ht, hmem⟩
      kind_eq := by rw [← hat.kind_eq, hkind]; rfl
      value_ok := by simp
      nodup := by
        refine List.nodup_append.mpr ⟨hnodup, List.nodup_singleton child, ?_⟩
        rintro c hc _ hd rfl
        exact hnew (List.mem_singleton.mp hd ▸ hc)
      adoptable := by
        intro c hc hold
        rw [hat.ownedAt_eq] at hold
        rcases List.mem_append.mp hc with hc | hc
        · exact absurd hc hold
        · exact List.mem_singleton.mp hc ▸ hchild
      target_mem := by simp [Slot.target?] }

end Forest

namespace Command

variable {f : Forest} {e : Effect}

theorem admissible_released {owner : NodeId} {property : String} {slot : Slot}
    (hkind : slot.kind = .multiple) (howned : slot.owned = []) (htarget : slot.target? = none)
    (h : released f owner property slot = .ok e) : e.Admissible f := by
  obtain ⟨site, hsite, he⟩ := bind_eq_ok.mp h
  obtain rfl := Except.ok.inj he
  exact .of_owned_nil hsite hkind howned (by rintro v rfl; cases hkind) (by simp [htarget])

theorem admissible_retargeted {node : NodeId} {property : String} {target : Option NodeId}
    (htarget : ∀ t, target = some t → (f.get? t).isSome)
    (h : retargeted f node property target = .ok e) : e.Admissible f := by
  obtain ⟨site, hsite, h⟩ := bind_eq_ok.mp h
  obtain ⟨n, -, h⟩ := bind_eq_ok.mp h
  split at h
  · obtain rfl := Except.ok.inj h
    exact .of_owned_nil hsite rfl rfl (by simp) (by simpa [Slot.target?] using htarget)
  · cases h

/-- **Effects that are granted keep forests sound.**  Every command makes the
checks that its effect needs. -/
theorem admissible (hf : f.Sound) {c : Command} (h : c.effect f = .ok e) : e.Admissible f := by
  cases c with
  | create type =>
      obtain ⟨t, ht, h⟩ := bind_eq_ok.mp h
      split at h
      · cases h
      case isFalse hconcrete =>
        obtain rfl := Except.ok.inj h
        exact ⟨t, ht, by simpa using hconcrete, rfl⟩
  | setPosition node position =>
      obtain ⟨n, hn, h⟩ := bind_eq_ok.mp h
      obtain rfl := Except.ok.inj h
      rw [node_eq_ok] at hn
      simp [Effect.Admissible, hn]
  | setValue node property v =>
      obtain ⟨site, hsite, h⟩ := bind_eq_ok.mp h
      obtain ⟨_, hcheck, h⟩ := bind_eq_ok.mp h
      obtain rfl := Except.ok.inj h
      exact .of_owned_nil hsite rfl rfl (by rintro w ⟨⟩; exact hcheck) (by simp [Slot.target?])
  | setChild owner property child =>
      obtain ⟨site, hsite, h⟩ := bind_eq_ok.mp h
      obtain ⟨n, hn, h⟩ := bind_eq_ok.mp h
      obtain ⟨n', s, hat, hkind⟩ := hf.exists_slotAt hsite
      obtain rfl : n' = n := Except.ok.inj (hat.node_eq.symm.trans hn)
      rw [hat.slotAt_eq] at h
      split at h
      case isTrue hsame =>
        obtain rfl := Except.ok.inj h
        refine .of_child hsite fun c hc => .inl ?_
        rw [hat.ownedAt_eq, Slot.owned_of_kind_single hkind, hsame, hc]
        simp
      case isFalse =>
        obtain ⟨_, hcheck, h⟩ := bind_eq_ok.mp h
        obtain rfl := Except.ok.inj h
        refine .of_child hsite fun c hc => .inr ?_
        subst hc
        exact hf.wellFormed.checkAdoption_eq_ok_iff.mp hcheck
  | append owner property child =>
      obtain ⟨site, hsite, h⟩ := bind_eq_ok.mp h
      obtain ⟨_, hcheck, h⟩ := bind_eq_ok.mp h
      obtain ⟨n, hn, h⟩ := bind_eq_ok.mp h
      obtain rfl := Except.ok.inj h
      exact .of_append hf hsite (node_eq_ok.mp hn)
        (hf.wellFormed.checkAdoption_eq_ok_iff.mp hcheck)
  | clear owner property => exact admissible_released rfl rfl rfl h
  | ignore owner property => exact admissible_released rfl rfl rfl h
  | setReference node property reference =>
      obtain ⟨site, hsite, h⟩ := bind_eq_ok.mp h
      obtain ⟨_, hcheck, h⟩ := bind_eq_ok.mp h
      obtain rfl := Except.ok.inj h
      refine .of_owned_nil hsite rfl rfl (by simp) fun t ht => ?_
      have htarget : reference.bind NamedRef.target = some t := by
        cases reference with
        | none => cases ht
        | some r => exact ht
      rw [htarget] at hcheck
      obtain ⟨n, hn, -⟩ := bind_eq_ok.mp hcheck
      simp [node_eq_ok.mp hn]
  | resolve node property target =>
      obtain ⟨n, hn, h⟩ := bind_eq_ok.mp h
      refine admissible_retargeted ?_ h
      rintro t ⟨⟩
      simp [node_eq_ok.mp hn]
  | unresolve node property => exact admissible_retargeted (by simp) h

end Command

/-! ### What one step preserves -/

namespace Forest

variable {f g : Forest}

/-- The nodes agree up to their positions. -/
def SameNodes (f g : Forest) : Prop :=
  ∀ i, ∃ place : Node → Option Position,
    g.get? i = (f.get? i).map fun n => { n with position := place n }

namespace SameNodes

theorem exists_node (h : f.SameNodes g) {i : NodeId} {n : Node} (hn : g.get? i = some n) :
    ∃ k, f.get? i = some k ∧ n.id = k.id ∧ n.type = k.type ∧ n.slots = k.slots := by
  obtain ⟨place, hplace⟩ := h i
  rw [hplace, Option.map_eq_some_iff] at hn
  obtain ⟨k, hk, rfl⟩ := hn
  exact ⟨k, hk, rfl, rfl, rfl⟩

theorem isSome_get? (h : f.SameNodes g) (i : NodeId) :
    (g.get? i).isSome = (f.get? i).isSome := by
  obtain ⟨place, hplace⟩ := h i
  rw [hplace, Option.isSome_map]

theorem parent?_eq (h : f.SameNodes g) : g.parent? = f.parent? := by
  funext c
  obtain ⟨place, hplace⟩ := h c
  rw [parent?, parent?, hplace, Option.bind_map]
  rfl

theorem owns_iff (h : f.SameNodes g) {p c : NodeId} : g.Owns p c ↔ f.Owns p c := by
  obtain ⟨place, hplace⟩ := h p
  cases hp : f.get? p <;> simp [Owns, hplace, hp, Node.owned]

theorem wellFormed (h : f.SameNodes g) (hf : f.WellFormed) : g.WellFormed where
  id_eq := by
    intro i n hn
    obtain ⟨k, hk, hid, -⟩ := h.exists_node hn
    rw [hid, hf.id_eq hk]
  parent_iff := by
    intro c p
    rw [h.parent?_eq, h.owns_iff, hf.parent_iff]
  nodup := by
    intro i n hn
    obtain ⟨k, hk, -, -, hslots⟩ := h.exists_node hn
    rw [Node.owned, hslots]
    exact hf.nodup hk
  target_mem := by
    intro i n j s t hn hj ht
    obtain ⟨k, hk, -, -, hslots⟩ := h.exists_node hn
    rw [h.isSome_get?]
    exact hf.target_mem hk (hslots ▸ hj) ht
  acyclic := by
    have hisParent : g.IsParent = f.IsParent := by
      unfold IsParent
      rw [h.parent?_eq]
    rw [hisParent]
    exact hf.acyclic

theorem accepts (h : f.SameNodes g) (hm : g.metamodel = f.metamodel) {p : Property} {s : Slot}
    (haccepts : f.Accepts p s) : g.Accepts p s where
  kind_eq := haccepts.kind_eq
  value_ok := by
    intro v hv
    rw [checkValue_of_metamodel_eq hm]
    exact haccepts.value_ok v hv
  child_ok := by
    intro c hc n hn expected hexpected
    obtain ⟨k, hk, -, htype, -⟩ := h.exists_node hn
    rw [hm, htype]
    exact haccepts.child_ok c hc k hk expected hexpected

/-- Soundness does not look at positions. -/
theorem sound (h : f.SameNodes g) (hm : g.metamodel = f.metamodel) (hf : f.Sound) :
    g.Sound where
  wellFormed := h.wellFormed hf.wellFormed
  wellTyped := by
    intro i n hn
    obtain ⟨k, hk, -, htype, hslots⟩ := h.exists_node hn
    obtain ⟨t, ht, hconcrete, hfits⟩ := hf.wellTyped hk
    refine ⟨t, by rw [hm, htype, ht], hconcrete, by rw [hslots, hfits.length_eq], ?_⟩
    intro j p s hp hj
    exact h.accepts hm (hfits.accepts hp (hslots ▸ hj))

end SameNodes

/-- The nodes after a new one was added. -/
theorem get?_created (f : Forest) (type : String) (slots : List Slot) (i : NodeId) :
    ((Effect.created type slots).apply f).get? i =
      if i.index = f.size then some { id := i, type, slots } else f.get? i := by
  change (f.nodes ++ [{ id := ⟨f.size⟩, type, slots }])[i.index]? = _
  by_cases hi : i.index = f.size
  · have hid : i = ⟨f.size⟩ := congrArg NodeId.mk hi
    rw [if_pos hi, hid]
    exact List.getElem?_concat_length
  · rw [if_neg hi, List.getElem?_append]
    split
    · rfl
    case isFalse hge =>
      have hlt : f.nodes.length < i.index := by
        rw [size] at hi
        omega
      rw [List.getElem?_eq_none (by simp; omega), get?, List.getElem?_eq_none (by omega)]

theorem get?_eq_none_of_size {i : NodeId} (h : i.index = f.size) : f.get? i = none := by
  rw [get?, List.getElem?_eq_none]
  exact Nat.le_of_eq h.symm

theorem parent?_created (f : Forest) (type : String) (slots : List Slot) (c : NodeId) :
    ((Effect.created type slots).apply f).parent? c = f.parent? c := by
  rw [parent?, parent?, get?_created]
  by_cases hc : c.index = f.size
  · rw [if_pos hc, get?_eq_none_of_size hc]
    rfl
  · rw [if_neg hc]

/-- A new node with empty slots owns nothing. -/
theorem owns_created (f : Forest) (type : String) (kinds : List Kind) {p c : NodeId} :
    ((Effect.created type (kinds.map Slot.empty)).apply f).Owns p c ↔ f.Owns p c := by
  rw [Owns, Owns, get?_created]
  by_cases hp : p.index = f.size
  · rw [if_pos hp, get?_eq_none_of_size hp]
    simp [Node.owned]
  · rw [if_neg hp]

/-- The nodes that there were stay. -/
theorem get?_created_of_some {i : NodeId} {n : Node} (hn : f.get? i = some n) (type : String)
    (slots : List Slot) : ((Effect.created type slots).apply f).get? i = some n := by
  rw [get?_created, if_neg, hn]
  intro hi
  rw [get?_eq_none_of_size hi] at hn
  cases hn

theorem WellFormed.created (hf : f.WellFormed) (type : String) (kinds : List Kind) :
    ((Effect.created type (kinds.map Slot.empty)).apply f).WellFormed where
  id_eq := by
    intro i n hn
    rw [get?_created] at hn
    split at hn
    · obtain rfl := Option.some.inj hn
      rfl
    · exact hf.id_eq hn
  parent_iff := by
    intro c p
    rw [parent?_created, hf.parent_iff, owns_created]
  nodup := by
    intro i n hn
    rw [get?_created] at hn
    split at hn
    · obtain rfl := Option.some.inj hn
      rw [Node.owned, List.flatMap_eq_nil_iff.mpr (by simp)]
      exact List.nodup_nil
    · exact hf.nodup hn
  target_mem := by
    intro i n j s u hn hj hu
    rw [get?_created] at hn
    split at hn
    · obtain rfl := Option.some.inj hn
      rw [List.getElem?_map, Option.map_eq_some_iff] at hj
      obtain ⟨kind, -, rfl⟩ := hj
      cases kind <;> cases hu
    · obtain ⟨k, hk⟩ := Option.isSome_iff_exists.mp (hf.target_mem hn hj hu)
      rw [get?_created_of_some hk]
      rfl
  acyclic := by
    intro c hcycle
    refine hf.acyclic c (Relation.TransGen.mono (fun x y hxy => ?_) c c hcycle)
    rw [IsParent, parent?_created] at hxy
    exact hxy

/-- Every property accepts its empty content. -/
theorem accepts_empty (f : Forest) (p : Property) : f.Accepts p (Slot.empty p.kind) where
  kind_eq := Slot.kind_empty p.kind
  value_ok := by
    intro v hv
    cases hk : p.kind with
    | value =>
        rw [hk] at hv
        obtain rfl := Slot.value.inj hv
        rfl
    | single | multiple | reference =>
        rw [hk] at hv
        cases hv
  child_ok := by simp

/-- A new node with empty slots keeps a forest sound. -/
theorem Sound.created (hf : f.Sound) {type : String} {t : NodeType}
    (ht : f.metamodel.type type = .ok t) (hconcrete : t.isAbstract = false) :
    ((Effect.created type ((t.effective.map Property.kind).map Slot.empty)).apply f).Sound where
  wellFormed := hf.wellFormed.created type _
  wellTyped := by
    intro i n hn
    rw [get?_created] at hn
    split at hn
    · obtain rfl := Option.some.inj hn
      refine ⟨t, ht, hconcrete, by simp, ?_⟩
      intro j p s hp hj
      simp only [List.map_map, List.getElem?_map, hp, Option.map_some, Option.some.injEq] at hj
      subst hj
      exact accepts_empty _ p
    case isFalse =>
      obtain ⟨u, hu, hc, hfits⟩ := hf.wellTyped hn
      refine ⟨u, hu, hc, hfits.length_eq, fun hp hj => ?_⟩
      have haccepts := hfits.accepts hp hj
      refine ⟨haccepts.kind_eq, haccepts.value_ok, ?_⟩
      -- What a slot owns was there before, so its type is known.
      intro c hcs n' hn' expected hexpected
      have hcf : f.Owns i c := ⟨n, hn, Node.mem_owned.mpr ⟨_, _, hj, hcs⟩⟩
      obtain ⟨k, hk⟩ := Option.isSome_iff_exists.mp (hf.wellFormed.isSome_of_owns hcf)
      obtain rfl : k = n' := Option.some.inj ((get?_created_of_some hk _ _).symm.trans hn')
      exact haccepts.child_ok c hcs k hk expected hexpected

end Forest

/-- **What one step preserves.** -/
theorem Effect.sound_apply {f : Forest} (hf : f.Sound) {e : Effect} (h : e.Admissible f) :
    (e.apply f).Sound := by
  cases e with
  | created type slots =>
      obtain ⟨t, ht, hconcrete, rfl⟩ := h
      have hsound := hf.created ht hconcrete
      rw [List.map_map] at hsound
      exact hsound
  | placed node position =>
      have hsame : f.SameNodes ((Effect.placed node position).apply f) := by
        intro i
        by_cases hi : i = node
        · exact ⟨fun _ => some position, by simp [Effect.apply, get?_modify, hi]⟩
        · exact ⟨Node.position, by simp [Effect.apply, get?_modify, hi]⟩
      exact hsame.sound rfl hf
  | refilled owner site slot => exact hf.refill h

/-! ### What a run preserves -/

/-- The forest after a command, whether it is granted or refused. -/
def Command.perform (c : Command) (f : Forest) : Forest :=
  match c.edit f with
  | .ok _ g => g
  | .error _ g => g

namespace Forest

variable {f : Forest} {m : Metamodel}

/-- The forest after a list of commands. -/
def run (commands : List Command) (f : Forest) : Forest :=
  commands.foldl (fun f c => c.perform f) f

/-- A run leads to the forest from the empty one over the metamodel. -/
def Reachable (m : Metamodel) (f : Forest) : Prop :=
  ∃ commands, run commands { metamodel := m } = f

/-- A command either has an admissible effect or changes nothing. -/
theorem perform_cases (hf : f.Sound) (c : Command) :
    c.perform f = f ∨ ∃ e : Effect, e.Admissible f ∧ c.perform f = e.apply f := by
  rw [Command.perform, c.edit_eq hf]
  cases he : c.effect f with
  | ok e => exact .inr ⟨e, Command.admissible hf he, rfl⟩
  | error err => exact .inl rfl

theorem metamodel_apply (e : Effect) (f : Forest) : (e.apply f).metamodel = f.metamodel := by
  cases e <;> rfl

theorem sound_empty (m : Metamodel) : Sound { metamodel := m } where
  wellFormed :=
    { id_eq := by simp [get?]
      parent_iff := by simp [parent?, Owns, get?]
      nodup := by simp [get?]
      target_mem := by simp [get?]
      acyclic := by
        intro c hcycle
        obtain ⟨p, hp, -⟩ := Relation.TransGen.head'_iff.mp hcycle
        simp [IsParent, parent?, get?] at hp }
  wellTyped := by
    intro i n hn
    simp [get?] at hn

/-- **What a run preserves.** -/
theorem sound_run (commands : List Command) (hf : f.Sound) : (run commands f).Sound := by
  induction commands generalizing f with
  | nil => exact hf
  | cons c commands ih =>
      refine ih (f := c.perform f) ?_
      rcases perform_cases hf c with h | ⟨e, he, h⟩
      · rw [h]; exact hf
      · rw [h]; exact Effect.sound_apply hf he

theorem metamodel_run (commands : List Command) (hf : f.Sound) :
    (run commands f).metamodel = f.metamodel := by
  induction commands generalizing f with
  | nil => rfl
  | cons c commands ih =>
      change (run commands (c.perform f)).metamodel = f.metamodel
      rcases perform_cases hf c with h | ⟨e, he, h⟩
      · rw [h]; exact ih hf
      · rw [h, ih (Effect.sound_apply hf he), metamodel_apply]

theorem Reachable.sound (h : Reachable m f) : f.Sound := by
  obtain ⟨commands, rfl⟩ := h
  exact sound_run commands (sound_empty m)

theorem Reachable.metamodel_eq (h : Reachable m f) : f.metamodel = m := by
  obtain ⟨commands, rfl⟩ := h
  exact metamodel_run commands (sound_empty m)

/-- **After every run, parents and slots tell one story.**  Node `i` carries the
number `i`; owned nodes and targets of references exist; the parent of a node is
the node that owns it; over all places of all slots of all nodes, no node stands
twice; and following parents never leads back. -/
theorem run_agreement (m : Metamodel) (commands : List Command) :
    let f := run commands { metamodel := m }
    (∀ (i : Nat) (n : Node), f.nodes[i]? = some n → n.id = ⟨i⟩) ∧
    (∀ n ∈ f.nodes, ∀ s ∈ n.slots, ∀ c ∈ s.owned, (f.get? c).isSome) ∧
    (∀ n ∈ f.nodes, ∀ r t, .reference (some r) ∈ n.slots → r.target = some t →
      (f.get? t).isSome) ∧
    (∀ c p, f.parent? c = some p ↔ ∃ n, f.get? p = some n ∧ ∃ s ∈ n.slots, c ∈ s.owned) ∧
    (f.nodes.flatMap fun n => n.slots.flatMap Slot.owned).Nodup ∧
    ∀ c, ¬ Relation.TransGen (fun c p => f.parent? c = some p) c c := by
  intro f
  have hf : f.WellFormed := (sound_run commands (sound_empty m)).wellFormed
  refine ⟨fun i n hn => hf.id_eq hn, ?_, ?_, ?_, hf.nodup_owned, hf.acyclic⟩
  · intro n hn s hs c hc
    obtain ⟨i, hi⟩ := List.mem_iff_getElem?.mp hn
    exact hf.isSome_of_owns (p := ⟨i⟩) ⟨n, hi, List.mem_flatMap.mpr ⟨s, hs, hc⟩⟩
  · intro n hn r t hs ht
    obtain ⟨i, hi⟩ := List.mem_iff_getElem?.mp hn
    obtain ⟨j, hj⟩ := List.mem_iff_getElem?.mp hs
    exact hf.target_mem (i := ⟨i⟩) hi hj ht
  · intro c p
    rw [hf.parent_iff]
    simp only [Owns, Node.owned, List.mem_flatMap]

end Forest

end TypedForest
