import Mathlib.Logic.Relation
import TypedForest.Proofs.Metamodel.Merge

/-!
# Inheritance

A table of effective properties has two readings.  As a list it is a concatenation of
which the first property of each name is kept.  As a set it consists of what the types at
and above a type declare.  When tables are put together, a property is taken for a copy of
another if the two have the same name and the same declaring type, and is dropped.  That
nothing else is ever dropped has to be derived from the whole history of registrations:
names and declaring types determine properties as long as types are registered once and
declare no name twice.

## Main Definitions

* `Metamodel.Extends`, `Metamodel.Declares`: direct supertypes and declared properties.
* `Metamodel.Layered`: what registration establishes.
* `Metamodel.Registrable`: when a type can be registered.

## Main Results

* `Layered.register_eq_ok_iff`: what registering a type gives, and when.
* `Layered.enter`: what one registration preserves.
* `Built.layered`: what all registrations preserve.
* `Metamodel.tables_inherited`: the tables of all metamodels, and all that registrations do.
-/

namespace TypedForest

open Property

namespace Metamodel

variable {m m' : Metamodel} {d : TypeDeclaration} {t u : NodeType} {p : Property} {s : String}

/-! ### Direct and indirect supertypes -/

/-- The type `super` is a direct supertype of `sub`. -/
def Extends (m : Metamodel) (sub super : String) : Prop :=
  ∃ t ∈ m.types, t.name = sub ∧ super ∈ t.supertypes

/-- The property is declared by the type of the given name. -/
def Declares (m : Metamodel) (type : String) (p : Property) : Prop :=
  ∃ t ∈ m.types, t.name = type ∧ p ∈ t.declared

/-- All types are listed, each once and after its supertypes, and their tables are what
inheritance makes of the tables above them: the first property of each name of the
concatenation, where properties of one name are copies of each other, and in sum what the
types at and above a type declare. -/
structure Layered (m : Metamodel) : Prop extends Indexed m where
  names_eq : m.types.map NodeType.name = m.order
  supertypes_before : ∀ {older newer : List NodeType} {t : NodeType},
    m.types = older ++ t :: newer → ∀ s ∈ t.supertypes, s ∈ older.map NodeType.name
  nodup_declared : ∀ t ∈ m.types, (t.declared.map Property.name).Nodup
  declaredBy_eq : ∀ t ∈ m.types, ∀ p ∈ t.declared, p.declaredBy = t.name
  effective_eq : ∀ t ∈ m.types, t.effective = keepFirst (m.inherited t.supertypes ++ t.declared)
  copies_eq : ∀ t ∈ m.types, ∀ p ∈ m.inherited t.supertypes ++ t.declared,
    ∀ q ∈ m.inherited t.supertypes ++ t.declared, p.name = q.name → p = q
  nodup_effective : ∀ t ∈ m.types, (t.effective.map Property.name).Nodup
  mem_effective : ∀ t ∈ m.types, ∀ p, p ∈ t.effective ↔
    ∃ owner, Relation.ReflTransGen m.Extends t.name owner ∧ m.Declares owner p

/-- The property comes from the type `owner`, if the type is declared as described. -/
def Contributes (m : Metamodel) (d : TypeDeclaration) (owner : String) (p : Property) : Prop :=
  owner = d.name ∧ p ∈ d.properties ∨
    ∃ s ∈ d.supertypes, Relation.ReflTransGen m.Extends s owner ∧ m.Declares owner p

/-- The type can be registered: its name is new, its supertypes and the enumerations that
it uses are registered, it declares no name twice, and no name is declared by two
different types among the type and all those above it. -/
structure Registrable (m : Metamodel) (d : TypeDeclaration) : Prop where
  name_new : d.name ∉ m.order
  supertypes_mem : ∀ s ∈ d.supertypes, s ∈ m.order
  nodup : (d.properties.map Property.name).Nodup
  enumerated : ∀ p ∈ d.properties, m.Enumerated p
  one_declarer : ∀ {owner owner' : String} {p q : Property}, m.Contributes d owner p →
    m.Contributes d owner' q → p.name = q.name → owner = owner'

/-- A name and a declaring type determine a property. -/
theorem Layered.eq_of_declares (hm : m.Layered) {owner : String} {p q : Property}
    (hp : m.Declares owner p) (hq : m.Declares owner q) (hname : p.name = q.name) : p = q := by
  obtain ⟨t, ht, rfl, hp⟩ := hp
  obtain ⟨u, hu, htype, hq⟩ := hq
  obtain rfl : u = t := List.inj_on_of_nodup_map hm.nodup_names hu ht htype
  exact List.inj_on_of_nodup_map (hm.nodup_declared u hu) hp hq hname

theorem Layered.declaredBy_of_declares (hm : m.Layered) {owner : String}
    (hp : m.Declares owner p) : p.declaredBy = owner := by
  obtain ⟨t, ht, rfl, hp⟩ := hp
  exact hm.declaredBy_eq t ht p hp

/-- Supertypes are registered. -/
theorem Layered.mem_of_extends (hm : m.Layered) {sub super : String} (h : m.Extends sub super) :
    super ∈ m.order := by
  obtain ⟨t, ht, -, hsuper⟩ := h
  obtain ⟨older, newer, hsplit⟩ := List.append_of_mem ht
  have hbefore := hm.supertypes_before hsplit super hsuper
  rw [← hm.names_eq, hsplit, List.map_append]
  exact List.mem_append_left _ hbefore

/-- What a type inherits is declared above its supertypes. -/
theorem Layered.mem_inherited (hm : m.Layered) {supertypes : List String} :
    p ∈ m.inherited supertypes ↔ ∃ s ∈ supertypes, s ∈ m.order ∧
      ∃ owner, Relation.ReflTransGen m.Extends s owner ∧ m.Declares owner p := by
  rw [inherited, List.mem_flatMap]
  refine exists_congr fun s => and_congr_right fun _ => ?_
  rw [effectiveOf, hm.mem_order]
  cases hs : m.type? s with
  | none => simp
  | some t =>
      obtain ⟨ht, rfl⟩ := hm.mem_of_type? hs
      simpa using hm.mem_effective t ht p

/-- What is put together for a declaration, by the types it comes from. -/
theorem Layered.exists_mem_iff (hm : m.Layered)
    (hknown : ∀ s ∈ d.supertypes, s ∈ m.order) {owner name : String} :
    (∃ p ∈ m.inherited d.supertypes ++ d.declared, p.name = name ∧ p.declaredBy = owner) ↔
      ∃ p, m.Contributes d owner p ∧ p.name = name := by
  constructor
  · rintro ⟨p, hp, rfl, rfl⟩
    rcases List.mem_append.mp hp with hp | hp
    · obtain ⟨s, hs, -, owner, hup, hdeclares⟩ := hm.mem_inherited.mp hp
      rw [hm.declaredBy_of_declares hdeclares]
      exact ⟨p, .inr ⟨s, hs, hup, hdeclares⟩, rfl⟩
    · obtain ⟨q, hq, rfl⟩ := List.mem_map.mp hp
      exact ⟨q, .inl ⟨rfl, hq⟩, rfl⟩
  · rintro ⟨p, ⟨rfl, hp⟩ | ⟨s, hs, hup, hdeclares⟩, rfl⟩
    · exact ⟨_, List.mem_append_right _ (List.mem_map_of_mem hp), rfl, rfl⟩
    · refine ⟨p, List.mem_append_left _ ?_, rfl, hm.declaredBy_of_declares hdeclares⟩
      exact hm.mem_inherited.mpr ⟨s, hs, hknown s hs, owner, hup, hdeclares⟩

/-- Tables can be put together exactly if no name has two declaring types. -/
theorem Layered.reconcilable_iff (hm : m.Layered)
    (hknown : ∀ s ∈ d.supertypes, s ∈ m.order) :
    Reconcilable (m.inherited d.supertypes ++ d.declared) ↔
      ∀ {owner owner' : String} {p q : Property}, m.Contributes d owner p →
        m.Contributes d owner' q → p.name = q.name → owner = owner' := by
  constructor
  · intro h owner owner' p q hp hq hname
    obtain ⟨p', hp', hpname, rfl⟩ := (hm.exists_mem_iff hknown).mpr ⟨p, hp, rfl⟩
    obtain ⟨q', hq', hqname, rfl⟩ := (hm.exists_mem_iff hknown).mpr ⟨q, hq, rfl⟩
    exact h p' hp' q' hq' (by rw [hpname, hqname, hname])
  · intro h p hp q hq hname
    obtain ⟨p', hp', hpname⟩ := (hm.exists_mem_iff hknown).mp ⟨p, hp, rfl, rfl⟩
    obtain ⟨q', hq', hqname⟩ := (hm.exists_mem_iff hknown).mp ⟨q, hq, rfl, rfl⟩
    exact h hp' hq' (by rw [hpname, hqname, hname])

/-- **When a declaration describes a type.** -/
theorem Layered.resolve_eq_ok_iff (hm : m.Layered) :
    m.resolve d = .ok t ↔ m.Registrable d ∧ t = m.typeFor d := by
  simp only [resolve_eq_ok, ← hm.not_mem_order, ← hm.mem_order]
  constructor
  · rintro ⟨hnew, hknown, hnodup, henumerated, hreconcilable, ht⟩
    exact ⟨⟨hnew, hknown, hnodup, henumerated, (hm.reconcilable_iff hknown).mp hreconcilable⟩, ht⟩
  · rintro ⟨h, ht⟩
    exact ⟨h.name_new, h.supertypes_mem, h.nodup, h.enumerated,
      (hm.reconcilable_iff h.supertypes_mem).mpr h.one_declarer, ht⟩

/-! ### What one registration preserves -/

theorem mem_enter (hnew : t.name ∉ m.order) : u ∈ (m.enter t).types ↔ u ∈ m.types ∨ u = t := by
  rw [types_enter hnew, List.mem_append, List.mem_singleton]

/-- What has an old name is old. -/
theorem mem_of_mem_enter (hnew : t.name ∉ m.order) (hu : u ∈ (m.enter t).types)
    (hold : u.name ∈ m.order) : u ∈ m.types := by
  rcases (mem_enter hnew).mp hu with hu | rfl
  · exact hu
  · exact absurd hold hnew

/-- What has the new name is new. -/
theorem Indexed.eq_of_mem_enter (hm : m.Indexed) (hnew : t.name ∉ m.order)
    (hu : u ∈ (m.enter t).types) (hname : u.name = t.name) : u = t := by
  rcases (mem_enter hnew).mp hu with hu | rfl
  · exact absurd (hname ▸ hm.name_mem_order hu) hnew
  · rfl

theorem Indexed.inherited_enter (hm : m.Indexed) (hnew : t.name ∉ m.order)
    {supertypes : List String} (hknown : ∀ s ∈ supertypes, s ∈ m.order) :
    (m.enter t).inherited supertypes = m.inherited supertypes := by
  refine List.flatMap_congr fun s hs => ?_
  obtain ⟨u, hu⟩ := Option.isSome_iff_exists.mp ((hm.mem_order s).mp (hknown s hs))
  rw [effectiveOf, effectiveOf, hm.type?_enter_of_some hnew hu, hu]

/-- Below a new type, the order of types stays as it is. -/
theorem Layered.reflTransGen_enter (hm : m.Layered) (hnew : t.name ∉ m.order)
    {sub super : String} (hsub : sub ∈ m.order) :
    Relation.ReflTransGen (m.enter t).Extends sub super ↔
      Relation.ReflTransGen m.Extends sub super := by
  constructor
  · intro h
    -- Along the way up all types are old, since supertypes of old types are.
    suffices hboth : Relation.ReflTransGen m.Extends sub super ∧
        super ∈ m.order from hboth.1
    induction h with
    | refl => exact ⟨.refl, hsub⟩
    | tail _ hstep ih =>
        obtain ⟨hup, hold⟩ := ih
        obtain ⟨u, hu, rfl, hsuper⟩ := hstep
        have hextends : m.Extends u.name _ := ⟨u, mem_of_mem_enter hnew hu hold, rfl, hsuper⟩
        exact ⟨hup.tail hextends, hm.mem_of_extends hextends⟩
  · intro h
    refine Relation.ReflTransGen.mono (fun a b hab => ?_) sub super h
    obtain ⟨u, hu, hname, hb⟩ := hab
    exact ⟨u, (mem_enter hnew).mpr (.inl hu), hname, hb⟩

/-- What old types declare stays as it is. -/
theorem declares_enter (hnew : t.name ∉ m.order) {owner : String}
    (howner : owner ∈ m.order) :
    (m.enter t).Declares owner p ↔ m.Declares owner p := by
  constructor
  · rintro ⟨u, hu, rfl, hp⟩
    exact ⟨u, mem_of_mem_enter hnew hu howner, rfl, hp⟩
  · rintro ⟨u, hu, rfl, hp⟩
    exact ⟨u, (mem_enter hnew).mpr (.inl hu), rfl, hp⟩

/-- What is declared at and above an old type stays as it is. -/
theorem Layered.exists_declares_enter (hm : m.Layered)
    (hnew : t.name ∉ m.order) {sub : String}
    (hsub : sub ∈ m.order) :
    (∃ owner, Relation.ReflTransGen (m.enter t).Extends sub owner ∧
        (m.enter t).Declares owner p) ↔
      ∃ owner, Relation.ReflTransGen m.Extends sub owner ∧ m.Declares owner p := by
  refine exists_congr fun owner => ?_
  rw [hm.reflTransGen_enter hnew hsub]
  refine and_congr_right fun hup => declares_enter hnew ?_
  rcases hup.cases_tail with rfl | ⟨b, -, hstep⟩
  · exact hsub
  · exact hm.mem_of_extends hstep

/-- What is declared at and above a new type: what it declares itself, and what is
declared at and above its supertypes. -/
theorem Layered.exists_declares_new (hm : m.Layered) (hd : m.Registrable d) :
    (∃ owner, Relation.ReflTransGen (m.enter (m.typeFor d)).Extends d.name owner ∧
        (m.enter (m.typeFor d)).Declares owner p) ↔
      p ∈ m.inherited d.supertypes ++ d.declared := by
  have hself : (m.enter (m.typeFor d)).Declares d.name p ↔ p ∈ d.declared := by
    constructor
    · rintro ⟨u, hu, hname, hp⟩
      obtain rfl := hm.eq_of_mem_enter hd.name_new hu hname
      exact hp
    · intro hp
      exact ⟨m.typeFor d, (mem_enter hd.name_new).mpr (.inr rfl), rfl, hp⟩
  have hstep : ∀ s, (m.enter (m.typeFor d)).Extends d.name s ↔ s ∈ d.supertypes := by
    intro s
    constructor
    · rintro ⟨u, hu, hname, hs⟩
      obtain rfl := hm.eq_of_mem_enter hd.name_new hu hname
      exact hs
    · intro hs
      exact ⟨m.typeFor d, (mem_enter hd.name_new).mpr (.inr rfl), rfl, hs⟩
  rw [List.mem_append, hm.mem_inherited]
  constructor
  · rintro ⟨owner, hup, hdeclares⟩
    rcases hup.cases_head with rfl | ⟨s, hs, hup⟩
    · exact .inr (hself.mp hdeclares)
    · have hs := (hstep s).mp hs
      have hknown := hd.supertypes_mem s hs
      exact .inl ⟨s, hs, hknown,
        (hm.exists_declares_enter hd.name_new hknown).mp ⟨owner, hup, hdeclares⟩⟩
  · rintro (⟨s, hs, hknown, habove⟩ | hp)
    · obtain ⟨owner, hup, hdeclares⟩ :=
        (hm.exists_declares_enter (t := m.typeFor d) hd.name_new hknown).mpr habove
      exact ⟨owner, hup.head ((hstep s).mpr hs), hdeclares⟩
    · exact ⟨d.name, .refl, hself.mpr hp⟩

/-- Where tables are put together, properties of one name are copies of each other. -/
theorem Layered.copies_eq_new (hm : m.Layered) (hd : m.Registrable d) :
    ∀ p ∈ m.inherited d.supertypes ++ d.declared,
      ∀ q ∈ m.inherited d.supertypes ++ d.declared, p.name = q.name → p = q := by
  have hold : ∀ {p q}, p ∈ m.inherited d.supertypes → q ∈ d.declared → p.name ≠ q.name := by
    intro p q hp hq hname
    obtain ⟨s, hs, -, owner, hup, hdeclares⟩ := hm.mem_inherited.mp hp
    obtain ⟨r, hr, rfl⟩ := List.mem_map.mp hq
    obtain rfl := hd.one_declarer (.inr ⟨s, hs, hup, hdeclares⟩) (.inl ⟨rfl, hr⟩) hname
    obtain ⟨u, hu, hu', -⟩ := hdeclares
    exact hd.name_new (hu' ▸ hm.name_mem_order hu)
  intro p hp q hq hname
  rcases List.mem_append.mp hp with hp | hp <;> rcases List.mem_append.mp hq with hq | hq
  · obtain ⟨s, hs, -, owner, hup, hdeclares⟩ := hm.mem_inherited.mp hp
    obtain ⟨s', hs', -, owner', hup', hdeclares'⟩ := hm.mem_inherited.mp hq
    obtain rfl := hd.one_declarer (.inr ⟨s, hs, hup, hdeclares⟩)
      (.inr ⟨s', hs', hup', hdeclares'⟩) hname
    exact hm.eq_of_declares hdeclares hdeclares' hname
  · exact absurd hname (hold hp hq)
  · exact absurd hname.symm (hold hq hp)
  · obtain ⟨r, hr, rfl⟩ := List.mem_map.mp hp
    obtain ⟨r', hr', rfl⟩ := List.mem_map.mp hq
    rw [List.inj_on_of_nodup_map hd.nodup hr hr' hname]

/-- A new type stands after its supertypes, and old types stand where they stood. -/
theorem Layered.supertypes_before_enter (hm : m.Layered) (hd : m.Registrable d)
    {older newer : List NodeType} (heq : (m.enter (m.typeFor d)).types = older ++ u :: newer)
    (hs : s ∈ u.supertypes) : s ∈ older.map NodeType.name := by
  rw [types_enter hd.name_new] at heq
  -- Either the type in question is the new one, which is the last, or it is an old one.
  rcases newer.eq_nil_or_concat with rfl | ⟨newer, last, rfl⟩
  · obtain ⟨rfl, hlast⟩ := List.append_inj' heq rfl
    obtain rfl := List.singleton_inj.mp hlast
    rw [hm.names_eq]
    exact hd.supertypes_mem s hs
  · rw [List.concat_eq_append, ← List.cons_append, ← List.append_assoc] at heq
    exact hm.supertypes_before (List.append_inj' heq rfl).1 s hs

/-- **What one registration preserves.** -/
theorem Layered.enter (hm : m.Layered) (hd : m.Registrable d)
    (hnodup : ((m.typeFor d).effective.map Property.name).Nodup) :
    (m.enter (m.typeFor d)).Layered := by
  have hindexed : (m.enter (m.typeFor d)).Indexed := hm.toIndexed.enter hd.name_new
  have hsupertypes : ∀ u ∈ m.types, ∀ s ∈ u.supertypes, s ∈ m.order :=
    fun u hu s hs => hm.mem_of_extends ⟨u, hu, rfl, hs⟩
  have hinherited : ∀ u ∈ m.types,
      (m.enter (m.typeFor d)).inherited u.supertypes = m.inherited u.supertypes :=
    fun u hu => hm.inherited_enter hd.name_new (hsupertypes u hu)
  have hinherited' : (m.enter (m.typeFor d)).inherited (m.typeFor d).supertypes =
      m.inherited d.supertypes := hm.inherited_enter hd.name_new hd.supertypes_mem
  -- A type of the new metamodel is an old one, or it is the new one.
  have hsplit : ∀ {motive : NodeType → Prop}, (∀ u ∈ m.types, motive u) → motive (m.typeFor d) →
      ∀ u ∈ (m.enter (m.typeFor d)).types, motive u := by
    intro motive hold hself u hu
    rcases (mem_enter hd.name_new).mp hu with hu | rfl
    · exact hold u hu
    · exact hself
  exact
    { toIndexed := hindexed
      names_eq := hindexed.map_name_types
      supertypes_before := fun heq s hs => hm.supertypes_before_enter hd heq hs
      nodup_declared := by
        refine hsplit hm.nodup_declared ?_
        rw [typeFor, TypeDeclaration.declared, List.map_map]
        exact hd.nodup
      declaredBy_eq := by
        refine hsplit hm.declaredBy_eq fun p hp => ?_
        obtain ⟨q, -, rfl⟩ := List.mem_map.mp hp
        rfl
      effective_eq := by
        refine hsplit (fun u hu => ?_) ?_
        · rw [hinherited u hu]
          exact hm.effective_eq u hu
        · rw [hinherited']
          rfl
      copies_eq := by
        refine hsplit (fun u hu => ?_) ?_
        · rw [hinherited u hu]
          exact hm.copies_eq u hu
        · rw [hinherited']
          exact hm.copies_eq_new hd
      nodup_effective := hsplit hm.nodup_effective hnodup
      mem_effective := by
        refine hsplit (fun u hu p => ?_) fun p => ?_
        · rw [hm.exists_declares_enter hd.name_new (hm.name_mem_order hu)]
          exact hm.mem_effective u hu p
        · exact (mem_keepFirst (hm.copies_eq_new hd)).trans (hm.exists_declares_new hd).symm }

/-- **Registering a type.**  It succeeds exactly if the type can be registered, and it
adds one type behind the others. -/
theorem Layered.register_eq_ok_iff (hm : m.Layered) :
    register d m = .ok () m' ↔ m.Registrable d ∧ m' = m.enter (m.typeFor d) := by
  simp only [register_eq_ok, hm.resolve_eq_ok_iff]
  constructor
  · rintro ⟨t, ⟨hd, rfl⟩, rfl⟩
    exact ⟨hd, rfl⟩
  · rintro ⟨hd, rfl⟩
    exact ⟨_, ⟨hd, rfl⟩, rfl⟩

/-! ### What all registrations preserve -/

/-- **What all registrations preserve.** -/
theorem Built.layered (hm : m.Built) : m.Layered := by
  refine hm.induction (fun name => ?_) (fun m name literals ih => ?_) fun m d t hm ih ht => ?_
  · have htypes : types { name } = [] := rfl
    exact
      { toIndexed := (Built.empty name).indexed
        names_eq := rfl
        supertypes_before := by simp [htypes]
        nodup_declared := by simp [htypes]
        declaredBy_eq := by simp [htypes]
        effective_eq := by simp [htypes]
        copies_eq := by simp [htypes]
        nodup_effective := by simp [htypes]
        mem_effective := by simp [htypes] }
  · -- Enumerations are beside the types, of which alone all this speaks.
    exact ⟨⟨ih.nodup_order, ih.mem_order, ih.name_eq⟩, ih.names_eq, ih.supertypes_before,
      ih.nodup_declared, ih.declaredBy_eq, ih.effective_eq, ih.copies_eq, ih.nodup_effective,
      ih.mem_effective⟩
  · have hnodup := (hm.unambiguous.resolve ht).nodup
    obtain ⟨hd, rfl⟩ := ih.resolve_eq_ok_iff.mp ht
    exact ih.enter hd hnodup

/-- What is registered stays. -/
theorem Layered.earlier_stay (hm : m.Layered) {r : Registration}
    (h : r.program m = .ok () m') :
    m.types <+: m'.types ∧
    (∀ type t, m.type? type = some t → m'.type? type = some t) ∧
      ∀ enumeration literals, m.literals? enumeration = some literals →
        m'.literals? enumeration = some literals := by
  rcases r.program_cases m with ⟨e, hrun⟩ | ⟨name, literals, -, hnew, hrun⟩ | ⟨d, t, -, ht, hrun⟩
  · rw [hrun] at h
    cases h
  · rw [hrun] at h
    cases h
    refine ⟨List.prefix_rfl, fun _ _ ht => ht, fun enumeration others hold => ?_⟩
    have hne : name ≠ enumeration := by
      rintro rfl
      rw [hnew] at hold
      cases hold
    exact (Dictionary.get?_insert_of_ne hne).trans hold
  · rw [hrun] at h
    cases h
    obtain ⟨hd, rfl⟩ := hm.resolve_eq_ok_iff.mp ht
    refine ⟨?_, fun _ _ ht => hm.type?_enter_of_some hd.name_new ht, fun _ _ hold => hold⟩
    rw [types_enter hd.name_new]
    exact List.prefix_append _ _

/-- **The tables of all metamodels.**  After any list of calls, whether they succeed or
not, types and tables are layered.  Registering a further type succeeds exactly if it can
be registered; it then writes the name of the type behind the others and the type under its
name, and nothing else.  Whatever a successful call writes, what is registered stays; and a
call that fails leaves the metamodel as it is. -/
theorem tables_inherited (name : String) (calls : List Registration) :
    let m := grow calls { name }
    m.Layered ∧
    (∀ d, (∃ m', register d m = .ok () m') ↔ m.Registrable d) ∧
    (∀ d m', register d m = .ok () m' →
      m' = { m with order := m.order ++ [d.name]
                    table := m.table.insert d.name (m.typeFor d) } ∧
      m'.types = m.types ++ [m.typeFor d]) ∧
    (∀ (r : Registration) m', r.program m = .ok () m' →
      m.types <+: m'.types ∧
      (∀ type t, m.type? type = some t → m'.type? type = some t) ∧
      ∀ enumeration literals, m.literals? enumeration = some literals →
        m'.literals? enumeration = some literals) ∧
    ∀ (r : Registration) (e : Error) m', r.program m = .error e m' → m' = m := by
  intro m
  have hm : m.Layered := ((Built.empty name).grow calls).layered
  refine ⟨hm, fun d => ?_, fun d m' h => ?_, fun r m' => hm.earlier_stay,
    fun r e m' => Registration.eq_of_error⟩
  · simp only [hm.register_eq_ok_iff]
    exact ⟨fun ⟨_, hd, _⟩ => hd, fun hd => ⟨_, hd, rfl⟩⟩
  · obtain ⟨hd, rfl⟩ := hm.register_eq_ok_iff.mp h
    exact ⟨rfl, types_enter hd.name_new⟩

/-- A name reaches the last type along three ways.  Two calls in between are refused. -/
def diamondCalls : List Registration :=
  [.enumeration "Mode" ["fast", "slow"],
   .type { name := "Named", isAbstract := true, properties :=
     [{ name := "name", kind := .value, dataType := some .string }] },
   .type { name := "Left", supertypes := ["Named"], properties :=
     [{ name := "mode", kind := .value, dataType := some (.enum "Mode") }] },
   .type { name := "Left" },
   .type { name := "Right", supertypes := ["Named", "Named"], properties :=
     [{ name := "parts", kind := .multiple, childType := some "Named" }] },
   .type { name := "Stray", supertypes := ["Missing"] },
   .type { name := "Both", supertypes := ["Right", "Left", "Named"], properties :=
     [{ name := "link", kind := .reference }] }]

/-- Declares a name that `Left` declares, too. -/
def rival : TypeDeclaration where
  name := "Rival"
  properties := [{ name := "mode", kind := .single }]

theorem tables_inherited_diamond :
    let m := grow diamondCalls { name := "diamond" }
    (m.effectiveOf "Both").map (fun p => (p.name, p.declaredBy)) =
      [("name", "Named"), ("parts", "Right"), ("mode", "Left"), ("link", "Both")] ∧
    m.order = ["Named", "Left", "Right", "Both"] ∧
    m.Layered ∧ m.Registrable { rival with supertypes := ["Right"] } ∧
    ¬ m.Registrable { rival with supertypes := ["Both"] } := by
  intro m
  obtain ⟨hlayered, hregister, hgrown, -, hfailed⟩ := tables_inherited "diamond" diamondCalls
  have horder : m.order = ["Named", "Left", "Right", "Both"] := by decide +kernel
  refine ⟨by decide +kernel, horder, hlayered, (hregister _).mp ?_, fun hrival => ?_⟩
  · have hcount :
        (outcome (register { rival with supertypes := ["Right"] } m)).order.length = 5 := by
      decide +kernel
    cases hrun : register { rival with supertypes := ["Right"] } m with
    | ok _ m' => exact ⟨m', rfl⟩
    | error e m' =>
        have hsame := hfailed (.type { rival with supertypes := ["Right"] }) e m' hrun
        rw [hrun, outcome, hsame] at hcount
        exact absurd hcount (by decide +kernel)
  · obtain ⟨m', hrun⟩ := (hregister _).mpr hrival
    have hcount :
        (outcome (register { rival with supertypes := ["Both"] } m)).order.length = 4 := by
      decide +kernel
    have hlonger : m'.order.length = 5 := by
      rw [(hgrown _ m' hrun).1]
      decide +kernel
    rw [hrun] at hcount
    exact absurd (hlonger.symm.trans hcount) (by decide)

end Metamodel

end TypedForest
