import TypedForest.Proofs.Metamodel.Tables

/-!
# Putting tables together

Registration puts the properties of a type together from tables that were put together
before: those of its supertypes, one after the other, and then what the type declares.  A
property whose name is taken is dropped if the property that has the name is declared by
the same type, and refused otherwise.

Said without any steps, the table is the concatenation, of which the first property of
each name is kept; and there is one unless properties of one name are declared by
different types.

## Main Definitions

* `Property.keepFirst`: the first property of each name.
* `Property.Reconcilable`: properties of one name are declared by one type.
* `Metamodel.inherited`, `Metamodel.typeFor`: the concatenation and the type.

## Main Results

* `NodeType.foldlM_adopt`: what adding properties to a table gives, and when.
* `Metamodel.resolve_eq_ok`: the type that a declaration describes, and when.
-/

namespace TypedForest

/-! ### One property of each name -/

namespace Property

/-- The first property of each name, in order. -/
def keepFirst (l : List Property) : List Property :=
  l.eraseDupsBy fun p q => p.name == q.name

@[simp] theorem keepFirst_nil : keepFirst [] = [] := rfl

theorem keepFirst_cons (p : Property) (l : List Property) :
    keepFirst (p :: l) = p :: keepFirst (l.filter fun q => q.name ≠ p.name) := by
  rw [keepFirst, List.eraseDupsBy_cons, keepFirst]
  congr 2
  refine List.filter_congr fun q _ => ?_
  simp

/-- Induction along the properties that are kept. -/
@[elab_as_elim]
theorem keepFirst_induction {motive : List Property → Prop} (nil : motive [])
    (cons : ∀ p l, motive (l.filter fun q => q.name ≠ p.name) → motive (p :: l))
    (l : List Property) : motive l := by
  induction hlength : l.length using Nat.strongRecOn generalizing l with
  | ind length ih =>
      cases l with
      | nil => exact nil
      | cons p l =>
          refine cons p l (ih _ ?_ _ rfl)
          have hle := List.length_filter_le (fun q => decide (q.name ≠ p.name)) l
          rw [← hlength, List.length_cons]
          omega

theorem mem_of_mem_keepFirst {p : Property} {l : List Property} (h : p ∈ keepFirst l) :
    p ∈ l := by
  induction l using keepFirst_induction with
  | nil => exact h
  | cons q l ih =>
      rw [keepFirst_cons] at h
      rcases List.mem_cons.mp h with rfl | h
      · exact List.mem_cons_self
      · exact List.mem_cons_of_mem _ (List.mem_filter.mp (ih h)).1

/-- Every name is kept. -/
theorem exists_mem_keepFirst {p : Property} {l : List Property} (h : p ∈ l) :
    ∃ q ∈ keepFirst l, q.name = p.name := by
  induction l using keepFirst_induction with
  | nil => cases h
  | cons q l ih =>
      rw [keepFirst_cons]
      by_cases hname : p.name = q.name
      · exact ⟨q, List.mem_cons_self, hname.symm⟩
      · have hmem : p ∈ l := (List.mem_cons.mp h).resolve_left fun heq => hname (heq ▸ rfl)
        obtain ⟨r, hr, hsame⟩ := ih (List.mem_filter.mpr ⟨hmem, decide_eq_true hname⟩)
        exact ⟨r, List.mem_cons_of_mem _ hr, hsame⟩

/-- Where names determine properties, nothing but copies is dropped. -/
theorem mem_keepFirst {p : Property} {l : List Property}
    (hl : ∀ q ∈ l, ∀ r ∈ l, q.name = r.name → q = r) : p ∈ keepFirst l ↔ p ∈ l := by
  refine ⟨mem_of_mem_keepFirst, fun h => ?_⟩
  obtain ⟨q, hq, hname⟩ := exists_mem_keepFirst h
  rwa [← hl q (mem_of_mem_keepFirst hq) p h hname]

/-- Properties of one name are declared by one type. -/
def Reconcilable (l : List Property) : Prop :=
  ∀ p ∈ l, ∀ q ∈ l, p.name = q.name → p.declaredBy = q.declaredBy

theorem Reconcilable.mono {l l' : List Property} (h : Reconcilable l') (hsub : l ⊆ l') :
    Reconcilable l :=
  fun p hp q hq => h p (hsub hp) q (hsub hq)

/-- A property whose name is new stands in nobody's way. -/
theorem Reconcilable.concat {table : List Property} (htable : Reconcilable table) {p : Property}
    (hnew : p.name ∉ table.map Property.name) : Reconcilable (table ++ [p]) := by
  have hne : ∀ q ∈ table, q.name ≠ p.name :=
    fun q hq heq => hnew (heq ▸ List.mem_map_of_mem hq)
  intro q hq r hr hname
  rcases List.mem_append.mp hq with hq | hq <;> rcases List.mem_append.mp hr with hr | hr
  · exact htable q hq r hr hname
  · exact absurd (hname.trans (List.mem_singleton.mp hr ▸ rfl)) (hne q hq)
  · exact absurd (hname.symm.trans (List.mem_singleton.mp hq ▸ rfl)) (hne r hr)
  · rw [List.mem_singleton.mp hq, List.mem_singleton.mp hr]

/-- A second property of a name changes nothing if it is declared by the same type. -/
theorem reconcilable_append_cons {table l : List Property} {p q : Property} (hq : q ∈ table)
    (hname : q.name = p.name) (hsame : q.declaredBy = p.declaredBy) :
    Reconcilable (table ++ p :: l) ↔ Reconcilable (table ++ l) := by
  refine ⟨fun h => h.mono ?_, fun h => ?_⟩
  · exact List.append_subset.mpr ⟨List.subset_append_left _ _,
      List.subset_append_of_subset_right _ (List.subset_cons_self _ _)⟩
  -- Whatever is said of `p` can be said of `q`, which stands before it.
  have hcover : ∀ r ∈ table ++ p :: l, ∃ r' ∈ table ++ l,
      r'.name = r.name ∧ r'.declaredBy = r.declaredBy := by
    intro r hr
    rcases List.mem_append.mp hr with hr | hr
    · exact ⟨r, List.mem_append_left _ hr, rfl, rfl⟩
    · rcases List.mem_cons.mp hr with rfl | hr
      · exact ⟨q, List.mem_append_left _ hq, hname, hsame⟩
      · exact ⟨r, List.mem_append_right _ hr, rfl, rfl⟩
  intro r hr s hs heq
  obtain ⟨r', hr', hrname, hrowner⟩ := hcover r hr
  obtain ⟨s', hs', hsname, hsowner⟩ := hcover s hs
  rw [← hrowner, ← hsowner]
  exact h r' hr' s' hs' (by rw [hrname, hsname, heq])

end Property

open Property

/-- **Adding properties to a table.**  It succeeds exactly if properties of one name are
declared by one type, and it adds the first property of each name that is new. -/
theorem NodeType.foldlM_adopt {type : String} {l table table' : List Property}
    (htable : Reconcilable table) :
    l.foldlM (NodeType.adopt type) table = .ok table' ↔
      Reconcilable (table ++ l) ∧
        table' = table ++ keepFirst (l.filter fun p => p.name ∉ table.map Property.name) := by
  induction l generalizing table with
  | nil =>
      rw [List.append_nil, List.filter_nil, keepFirst_nil, List.append_nil, and_iff_right htable]
      exact ⟨fun h => (Except.ok.inj h).symm, fun h => h ▸ rfl⟩
  | cons p l ih =>
      rw [List.foldlM_cons]
      cases hfind : table.find? fun q => q.name == p.name with
      | none =>
          have hnew : p.name ∉ table.map Property.name := by
            intro hmem
            obtain ⟨q, hq, hname⟩ := List.mem_map.mp hmem
            simpa [hname] using List.find?_eq_none.mp hfind q hq
          have hadopt : NodeType.adopt type table p = .ok (table ++ [p]) := by
            simp only [NodeType.adopt, hfind]
          have hkept : (l.filter fun q => q.name ∉ (table ++ [p]).map Property.name) =
              (l.filter fun q => q.name ∉ table.map Property.name).filter
                fun q => q.name ≠ p.name := by
            rw [List.filter_filter]
            refine List.filter_congr fun q _ => ?_
            simp only [List.map_append, List.map_singleton, List.mem_append, List.mem_singleton,
              not_or, Bool.decide_and]
            exact Bool.and_comm _ _
          rw [hadopt]
          refine (ih (htable.concat hnew)).trans ?_
          rw [List.append_assoc, List.singleton_append, hkept, List.filter_cons,
            if_pos (decide_eq_true hnew), keepFirst_cons, List.append_assoc, List.singleton_append]
      | some q =>
          have hq := List.mem_of_find?_eq_some hfind
          have hname : q.name = p.name := by simpa using List.find?_some hfind
          have hold : ¬ (decide (p.name ∉ table.map Property.name) = true) := by
            rw [decide_eq_true_eq, not_not]
            exact hname ▸ List.mem_map_of_mem hq
          by_cases hsame : q.declaredBy = p.declaredBy
          · have hadopt : NodeType.adopt type table p = .ok table := by
              simp only [NodeType.adopt, hfind, if_pos hsame]
            rw [hadopt, List.filter_cons, if_neg hold, reconcilable_append_cons hq hname hsame]
            exact ih htable
          · have hadopt : NodeType.adopt type table p =
                .error (.misconfigured (.collision type p.name q.declaredBy p.declaredBy)) := by
              simp only [NodeType.adopt, hfind, if_neg hsame]
            rw [hadopt]
            constructor
            · intro h
              cases h
            · rintro ⟨hreconcilable, -⟩
              exact absurd (hreconcilable q (List.mem_append_left _ hq) p
                (List.mem_append_right _ List.mem_cons_self) hname) hsame

/-- Steps that make a check and then add properties to a table. -/
theorem NodeType.foldlM_guarded {α : Type} {type : String}
    {step : List Property → α → Except Error (List Property)} {check : α → Prop}
    {properties : α → List Property}
    (hstep : ∀ table a table', step table a = .ok table' ↔
      check a ∧ (properties a).foldlM (NodeType.adopt type) table = .ok table')
    {l : List α} {table table' : List Property} :
    l.foldlM step table = .ok table' ↔
      (∀ a ∈ l, check a) ∧
        (l.flatMap properties).foldlM (NodeType.adopt type) table = .ok table' := by
  induction l generalizing table with
  | nil => simp
  | cons a l ih =>
      rw [List.foldlM_cons, List.flatMap_cons, List.foldlM_append, bind_eq_ok, bind_eq_ok,
        List.forall_mem_cons]
      simp only [hstep, ih]
      constructor
      · rintro ⟨next, ⟨ha, hfirst⟩, hl, hrest⟩
        exact ⟨⟨ha, hl⟩, next, hfirst, hrest⟩
      · rintro ⟨⟨ha, hl⟩, next, hfirst, hrest⟩
        exact ⟨next, ⟨ha, hfirst⟩, hl, hrest⟩

theorem firstRepeated?_eq_none {α : Type} [BEq α] [LawfulBEq α] {l seen : List α} :
    firstRepeated? seen l = none ↔ l.Nodup ∧ ∀ a ∈ l, a ∉ seen := by
  induction l generalizing seen with
  | nil => simp [firstRepeated?]
  | cons a l ih =>
      rw [firstRepeated?, List.forall_mem_cons, List.nodup_cons]
      by_cases ha : a ∈ seen
      · rw [if_pos (List.contains_iff_mem.mpr ha)]
        exact ⟨fun h => (Option.some_ne_none a h).elim, fun h => absurd ha h.2.1⟩
      · rw [if_neg fun h => ha (List.contains_iff_mem.mp h), ih]
        simp only [List.mem_cons, not_or]
        constructor
        · rintro ⟨hnodup, hl⟩
          exact ⟨⟨fun hmem => (hl a hmem).1 rfl, hnodup⟩, ha, fun b hb => (hl b hb).2⟩
        · rintro ⟨⟨hnew, hnodup⟩, -, hl⟩
          exact ⟨hnodup, fun b hb => ⟨fun heq => hnew (heq ▸ hb), hl b hb⟩⟩

/-- What a declaration declares, with the type that declares it. -/
def TypeDeclaration.declared (d : TypeDeclaration) : List Property :=
  d.properties.map fun p => { p with declaredBy := d.name }

namespace Metamodel

/-! ### The type that a declaration describes -/

/-- The effective properties of a type. -/
def effectiveOf (m : Metamodel) (type : String) : List Property :=
  ((m.type? type).map NodeType.effective).getD []

/-- The tables of some supertypes, one after the other. -/
def inherited (m : Metamodel) (supertypes : List String) : List Property :=
  supertypes.flatMap m.effectiveOf

/-- The enumeration that a property uses, if any, is registered. -/
def Enumerated (m : Metamodel) (p : Property) : Prop :=
  ∀ enumeration, p.dataType = some (.enum enumeration) → (m.literals? enumeration).isSome

/-- The type that a declaration describes. -/
def typeFor (m : Metamodel) (d : TypeDeclaration) : NodeType where
  name := d.name
  supertypes := d.supertypes
  isAbstract := d.isAbstract
  declared := d.declared
  effective := keepFirst (m.inherited d.supertypes ++ d.declared)

variable {m : Metamodel} {d : TypeDeclaration} {t : NodeType} {p : Property}
  {table table' : List Property} {type s : String}

theorem inherit_eq_ok :
    m.inherit type table s = .ok table' ↔
      (m.type? s).isSome ∧
        (m.effectiveOf s).foldlM (NodeType.adopt type) table = .ok table' := by
  rw [inherit, effectiveOf]
  cases m.type? s <;> simp

theorem declare_eq_ok :
    m.declare type table p = .ok table' ↔
      m.Enumerated p ∧ [p].foldlM (NodeType.adopt type) table = .ok table' := by
  have hone : [p].foldlM (NodeType.adopt type) table = NodeType.adopt type table p := by
    rw [List.foldlM_cons]
    exact bind_pure _
  rw [declare, Enumerated, hone]
  split
  case h_1 enumeration hdata =>
    rw [hdata]
    cases hliterals : m.literals? enumeration <;> simp [hliterals]
  case h_2 hother =>
    exact (and_iff_right fun enumeration hdata => absurd hdata (hother enumeration)).symm

/-- The supertypes must be registered, and their tables are added one after the other. -/
theorem foldlM_inherit {supertypes : List String} :
    supertypes.foldlM (m.inherit type) table = .ok table' ↔
      (∀ s ∈ supertypes, (m.type? s).isSome) ∧
        (m.inherited supertypes).foldlM (NodeType.adopt type) table = .ok table' := by
  refine NodeType.foldlM_guarded fun _ _ _ => ?_
  exact inherit_eq_ok

/-- The enumerations must be registered, and the declared properties are added. -/
theorem foldlM_declare {l : List Property} :
    l.foldlM (m.declare type) table = .ok table' ↔
      (∀ p ∈ l, m.Enumerated p) ∧ l.foldlM (NodeType.adopt type) table = .ok table' := by
  have hguarded : l.foldlM (m.declare type) table = .ok table' ↔
      (∀ p ∈ l, m.Enumerated p) ∧
        (l.flatMap fun p => [p]).foldlM (NodeType.adopt type) table = .ok table' := by
    refine NodeType.foldlM_guarded fun _ _ _ => ?_
    exact declare_eq_ok
  rwa [List.flatMap_singleton'] at hguarded

/-- The two passes together add the concatenation to the empty table. -/
theorem exists_passes_iff {effective : List Property} :
    (∃ table, d.supertypes.foldlM (m.inherit d.name) [] = .ok table ∧
        d.declared.foldlM (m.declare d.name) table = .ok effective) ↔
      (∀ s ∈ d.supertypes, (m.type? s).isSome) ∧
      (∀ p ∈ d.properties, m.Enumerated p) ∧
      Reconcilable (m.inherited d.supertypes ++ d.declared) ∧
        effective = keepFirst (m.inherited d.supertypes ++ d.declared) := by
  have henumerated : (∀ p ∈ d.declared, m.Enumerated p) ↔ ∀ p ∈ d.properties, m.Enumerated p :=
    List.forall_mem_map
  have hmerged : (m.inherited d.supertypes ++ d.declared).foldlM (NodeType.adopt d.name) [] =
      .ok effective ↔ Reconcilable (m.inherited d.supertypes ++ d.declared) ∧
        effective = keepFirst (m.inherited d.supertypes ++ d.declared) := by
    rw [NodeType.foldlM_adopt (by simp [Reconcilable])]
    simp
  rw [← hmerged, ← henumerated, List.foldlM_append, bind_eq_ok]
  simp only [foldlM_inherit, foldlM_declare]
  constructor
  · rintro ⟨table, ⟨hknown, hinherited⟩, henumerations, hdeclared⟩
    exact ⟨hknown, henumerations, table, hinherited, hdeclared⟩
  · rintro ⟨hknown, henumerations, table, hinherited, hdeclared⟩
    exact ⟨table, ⟨hknown, hinherited⟩, henumerations, hdeclared⟩

/-- **The type that a declaration describes, and when there is one.** -/
theorem resolve_eq_ok :
    m.resolve d = .ok t ↔
      m.type? d.name = none ∧
      (∀ s ∈ d.supertypes, (m.type? s).isSome) ∧
      (d.properties.map Property.name).Nodup ∧ (∀ p ∈ d.properties, m.Enumerated p) ∧
      Reconcilable (m.inherited d.supertypes ++ d.declared) ∧ t = m.typeFor d := by
  have hdistinct : firstRepeated? [] (d.properties.map Property.name) = none ↔
      (d.properties.map Property.name).Nodup := by
    rw [firstRepeated?_eq_none]
    exact and_iff_left fun _ _ => List.not_mem_nil
  constructor
  · intro h
    obtain ⟨_, hname, h⟩ := bind_eq_ok.mp h
    obtain ⟨table, hinherited, h⟩ := bind_eq_ok.mp h
    split at h
    · cases h
    case h_2 hnone =>
      obtain ⟨effective, heffective, h⟩ := bind_eq_ok.mp h
      obtain ⟨hknown, henumerations, hreconcilable, rfl⟩ :=
        exists_passes_iff.mp ⟨table, hinherited, heffective⟩
      exact ⟨checkTypeName_eq_ok.mp hname, hknown, hdistinct.mp hnone, henumerations,
        hreconcilable, (Except.ok.inj h).symm⟩
  · rintro ⟨hnew, hknown, hnodup, henumerations, hreconcilable, rfl⟩
    obtain ⟨table, hinherited, heffective⟩ :=
      exists_passes_iff.mpr ⟨hknown, henumerations, hreconcilable, rfl⟩
    unfold resolve
    refine bind_eq_ok.mpr ⟨(), checkTypeName_eq_ok.mpr hnew, bind_eq_ok.mpr ⟨table, hinherited, ?_⟩⟩
    rw [hdistinct.mpr hnodup]
    exact bind_eq_ok.mpr ⟨_, heffective, rfl⟩

end Metamodel

end TypedForest
