import TypedForest.Metamodel.Register
import TypedForest.Proofs.Dictionary

/-!
# Tables of registered types

Metamodels grow by registration.  A registration asks all its questions before it writes
anything, so one that fails leaves the metamodel as it was; one that succeeds writes the
order of types and the table of types one after the other, and they agree again in the
end.  Registration keeps the tables unambiguous: no two types share a name, no two
effective properties of a type do, and every effective property is declared by a
registered type.

## Main Definitions

* `Registration`, `Metamodel.grow`: calls, and the metamodel after a list of them.
* `Metamodel.resolve`: what the questions of a registration come to.
* `Metamodel.Built`: the metamodels that registration leads to.
* `Metamodel.Indexed`, `Metamodel.Unambiguous`: the invariants.

## Main Results

* `Metamodel.describe_eq`: the questions of a registration are one question.
* `Registration.program_cases`: all that a call can do.
* `Registration.eq_of_error`: a call that fails changes nothing.
* `Metamodel.Built.unambiguous`: registration keeps the tables unambiguous.
* `NodeType.property?_eq_some`: a property is found under its name.
-/

namespace TypedForest

namespace Metamodel

/-! ### What registrations do -/

/-- The node type that a declaration describes, as far as the metamodel allows it. -/
def resolve (m : Metamodel) (d : TypeDeclaration) : Except Error NodeType := do
  m.checkTypeName d.name
  let inherited ← d.supertypes.foldlM (m.inherit d.name) []
  match firstRepeated? [] (d.properties.map Property.name) with
  | some property => .error (.misconfigured (.repeatedProperty d.name property))
  | none =>
      let declared := d.properties.map fun p => { p with declaredBy := d.name }
      let effective ← declared.foldlM (m.declare d.name) inherited
      .ok ⟨d.name, d.supertypes, d.isAbstract, declared, effective⟩

/-- The metamodel with one more type. -/
def enter (m : Metamodel) (t : NodeType) : Metamodel :=
  { m with order := m.order ++ [t.name], table := m.table.insert t.name t }

/-- The metamodel with one more enumeration. -/
def enterEnumeration (m : Metamodel) (name : String) (literals : List String) : Metamodel :=
  { m with enumerations := m.enumerations.insert name literals }

/-- **The questions of a registration are one question.** -/
theorem describe_eq (d : TypeDeclaration) : describe d = ask fun m => m.resolve d := by
  unfold describe resolve
  simp only [foldlM_ask]
  cases firstRepeated? [] (d.properties.map Property.name) with
  | some property =>
      rw [← ask_bind_ask]
      refine congrArg _ (funext fun _ => ?_)
      rw [← ask_bind_ask]
      rfl
  | none =>
      rw [← ask_bind_ask]
      refine congrArg _ (funext fun _ => ?_)
      rw [← ask_bind_ask]
      refine congrArg _ (funext fun _ => ?_)
      rw [← ask_bind_ask]
      rfl

/-- A type that is described is written down. -/
theorem register_of_ok {m : Metamodel} {d : TypeDeclaration} {t : NodeType}
    (h : m.resolve d = .ok t) : register d m = .ok () (m.enter t) := by
  have hdescribe : describe d m = .ok t m := by
    rw [describe_eq]
    exact ask_of_ok h
  rw [register, bind_of_ok _ hdescribe]
  rfl

theorem register_of_error {m : Metamodel} {d : TypeDeclaration} {e : Error}
    (h : m.resolve d = .error e) : register d m = .error e m := by
  have hdescribe : describe d m = .error e m := by
    rw [describe_eq]
    exact ask_of_error h
  rw [register, bind_of_error _ hdescribe]

theorem register_eq_ok {m m' : Metamodel} {d : TypeDeclaration} :
    register d m = .ok () m' ↔ ∃ t, m.resolve d = .ok t ∧ m' = m.enter t := by
  cases h : m.resolve d with
  | ok t =>
      rw [register_of_ok h]
      simp [eq_comm]
  | error e =>
      rw [register_of_error h]
      simp

/-- An enumeration is written down if its name is new and its literals are distinct. -/
theorem registerEnumeration_cases (m : Metamodel) (name : String) (literals : List String) :
    (∃ e, registerEnumeration name literals m = .error e m) ∨
      m.literals? name = none ∧
        registerEnumeration name literals m = .ok () (m.enterEnumeration name literals) := by
  unfold registerEnumeration
  by_cases hname : (m.literals? name).isSome
  · exact .inl ⟨_, bind_of_error _ (ask_of_error (if_pos hname))⟩
  · have hcheck : (ask fun m : Metamodel => m.checkEnumerationName name) m = .ok () m :=
      ask_of_ok (if_neg hname)
    rw [bind_of_ok _ hcheck]
    cases firstRepeated? [] literals with
    | some literal => exact .inl ⟨_, rfl⟩
    | none => exact .inr ⟨Option.not_isSome_iff_eq_none.mp hname, rfl⟩

end Metamodel

/-- A call that registers something. -/
inductive Registration where
  | enumeration (name : String) (literals : List String)
  | type (d : TypeDeclaration)

namespace Registration

/-- The program of a call. -/
def program : Registration → Registering Unit
  | .enumeration name literals => Metamodel.registerEnumeration name literals
  | .type d => Metamodel.register d

/-- The metamodel that a call leaves, whether it succeeds or fails. -/
def perform (r : Registration) (m : Metamodel) : Metamodel := outcome (r.program m)

/-- **All that a call can do.**  It fails and writes nothing, or it writes an enumeration
under a new name, or a type that is described. -/
theorem program_cases (r : Registration) (m : Metamodel) :
    (∃ e, r.program m = .error e m) ∨
    (∃ name literals, r = .enumeration name literals ∧ m.literals? name = none ∧
      r.program m = .ok () (m.enterEnumeration name literals)) ∨
    ∃ d t, r = .type d ∧ m.resolve d = .ok t ∧ r.program m = .ok () (m.enter t) := by
  cases r with
  | enumeration name literals =>
      rcases m.registerEnumeration_cases name literals with hfail | ⟨hnew, hrun⟩
      · exact .inl hfail
      · exact .inr (.inl ⟨name, literals, rfl, hnew, hrun⟩)
  | type d =>
      cases h : m.resolve d with
      | error e => exact .inl ⟨e, Metamodel.register_of_error h⟩
      | ok t => exact .inr (.inr ⟨d, t, rfl, h, Metamodel.register_of_ok h⟩)

/-- **A call that fails changes nothing.** -/
theorem eq_of_error {r : Registration} {m m' : Metamodel} {e : Error}
    (h : r.program m = .error e m') : m' = m := by
  rcases r.program_cases m with ⟨e', hrun⟩ | ⟨_, _, _, _, hrun⟩ | ⟨_, _, _, _, hrun⟩
  · rw [hrun] at h
    cases h
    rfl
  · rw [hrun] at h
    cases h
  · rw [hrun] at h
    cases h

end Registration

namespace Metamodel

/-- The metamodel after a list of calls. -/
def grow (calls : List Registration) (m : Metamodel) : Metamodel :=
  calls.foldl (fun m r => r.perform m) m

/-- The metamodel was made by registering enumerations and types. -/
inductive Built : Metamodel → Prop
  | empty (name : String) : Built { name }
  | registerEnumeration {m m' : Metamodel} {name : String} {literals : List String}
      (hm : Built m) (h : Metamodel.registerEnumeration name literals m = .ok () m') : Built m'
  | register {m m' : Metamodel} {d : TypeDeclaration} (hm : Built m)
      (h : Metamodel.register d m = .ok () m') : Built m'

theorem Built.perform {m : Metamodel} (hm : m.Built) (r : Registration) : (r.perform m).Built := by
  rw [Registration.perform]
  cases h : r.program m with
  | error e m' => exact Registration.eq_of_error h ▸ hm
  | ok a m' =>
      cases r with
      | enumeration name literals => exact hm.registerEnumeration h
      | type d => exact hm.register h

theorem Built.grow {m : Metamodel} (hm : m.Built) (calls : List Registration) :
    (m.grow calls).Built := by
  induction calls generalizing m with
  | nil => exact hm
  | cons r calls ih => exact ih (hm.perform r)

/-- What writing an enumeration and writing a type keep, all registrations keep. -/
theorem Built.induction {motive : Metamodel → Prop} (empty : ∀ name, motive { name })
    (enumeration : ∀ m name literals, motive m → motive (m.enterEnumeration name literals))
    (type : ∀ m d t, m.Built → motive m → m.resolve d = .ok t → motive (m.enter t))
    {m : Metamodel} (hm : m.Built) : motive m := by
  induction hm with
  | empty name => exact empty name
  | @registerEnumeration m m' name literals _ h ih =>
      rcases m.registerEnumeration_cases name literals with ⟨e, hrun⟩ | ⟨-, hrun⟩
      · rw [hrun] at h
        cases h
      · rw [hrun] at h
        cases h
        exact enumeration m name literals ih
  | @register m m' d hm h ih =>
      obtain ⟨t, ht, rfl⟩ := register_eq_ok.mp h
      exact type m d t hm ih ht

/-! ### The order and the table -/

/-- The order lists the names in the table, each once, and types stand under their names. -/
structure Indexed (m : Metamodel) : Prop where
  nodup_order : m.order.Nodup
  mem_order : ∀ name, name ∈ m.order ↔ (m.type? name).isSome
  name_eq : ∀ {name : String} {t : NodeType}, m.type? name = some t → t.name = name

theorem type?_enter (m : Metamodel) (t : NodeType) (name : String) :
    (m.enter t).type? name = if t.name = name then some t else m.type? name :=
  m.table.get?_insert t.name name t

/-- A type with a new name is listed behind the others. -/
theorem types_enter {m : Metamodel} {t : NodeType} (hnew : t.name ∉ m.order) :
    (m.enter t).types = m.types ++ [t] := by
  show (m.order ++ [t.name]).filterMap (m.enter t).type? = _
  have hold : ∀ name ∈ m.order, (m.enter t).type? name = m.table.get? name := by
    intro name hname
    have hne : t.name ≠ name := fun heq => hnew (heq ▸ hname)
    rw [type?_enter, if_neg hne, type?]
  rw [List.filterMap_append, List.filterMap_congr hold, List.filterMap_cons, type?_enter,
    if_pos rfl]
  rfl

namespace Indexed

variable {m : Metamodel} {t : NodeType} {name : String}

theorem not_mem_order (hm : m.Indexed) : name ∉ m.order ↔ m.type? name = none := by
  rw [hm.mem_order, Option.not_isSome_iff_eq_none]

/-- **A type with a new name can be written down.** -/
theorem enter (hm : m.Indexed) (hnew : t.name ∉ m.order) : (m.enter t).Indexed where
  nodup_order := by
    show (m.order ++ [t.name]).Nodup
    rw [List.nodup_append']
    exact ⟨hm.nodup_order, List.nodup_singleton _, List.disjoint_singleton.mpr hnew⟩
  mem_order name := by
    show name ∈ m.order ++ [t.name] ↔ _
    rw [type?_enter, List.mem_append, List.mem_singleton, hm.mem_order]
    by_cases hname : t.name = name
    · simp [hname]
    · simp [hname, Ne.symm hname]
  name_eq := by
    intro name u hu
    rw [type?_enter] at hu
    split at hu
    case isTrue hname =>
      obtain rfl := Option.some.inj hu
      exact hname
    case isFalse => exact hm.name_eq hu

/-- The types that are listed are those in the table. -/
theorem mem_types (hm : m.Indexed) : t ∈ m.types ↔ m.type? t.name = some t := by
  rw [types, List.mem_filterMap]
  constructor
  · rintro ⟨name, -, ht⟩
    rwa [hm.name_eq ht]
  · intro ht
    exact ⟨t.name, (hm.mem_order _).mpr (by rw [ht]; rfl), ht⟩

theorem mem_of_type? (hm : m.Indexed) (h : m.type? name = some t) :
    t ∈ m.types ∧ t.name = name := by
  have hname := hm.name_eq h
  exact ⟨hm.mem_types.mpr (hname ▸ h), hname⟩

/-- The types are listed in the order of their names. -/
theorem map_name_types (hm : m.Indexed) : m.types.map NodeType.name = m.order := by
  have hall : ∀ name ∈ m.order, (m.table.get? name).map NodeType.name = some name := by
    intro name hname
    obtain ⟨t, ht⟩ := Option.isSome_iff_exists.mp ((hm.mem_order name).mp hname)
    rw [← type?, ht, Option.map_some, hm.name_eq ht]
  rw [types, List.map_filterMap, List.filterMap_congr hall, List.filterMap_some]

theorem name_mem_order (hm : m.Indexed) (ht : t ∈ m.types) : t.name ∈ m.order :=
  hm.map_name_types ▸ List.mem_map_of_mem ht

theorem nodup_names (hm : m.Indexed) : (m.types.map NodeType.name).Nodup :=
  hm.map_name_types ▸ hm.nodup_order

/-- Types that were registered stay. -/
theorem type?_enter_of_some (hm : m.Indexed) (hnew : t.name ∉ m.order) {u : NodeType}
    (h : m.type? name = some u) : (m.enter t).type? name = some u := by
  have hne : t.name ≠ name := by
    rintro rfl
    exact hnew ((hm.mem_order _).mpr (by rw [h]; rfl))
  rw [type?_enter, if_neg hne, h]

end Indexed

theorem checkTypeName_eq_ok {m : Metamodel} {name : String} :
    m.checkTypeName name = .ok () ↔ m.type? name = none := by
  rw [checkTypeName]
  cases m.type? name <;> simp

/-- Only a new name can be registered. -/
theorem type?_eq_none_of_resolve {m : Metamodel} {d : TypeDeclaration} {t : NodeType}
    (h : m.resolve d = .ok t) : m.type? d.name = none ∧ t.name = d.name := by
  obtain ⟨_, hname, h⟩ := bind_eq_ok.mp h
  obtain ⟨inherited, -, h⟩ := bind_eq_ok.mp h
  refine ⟨checkTypeName_eq_ok.mp hname, ?_⟩
  split at h
  · cases h
  · obtain ⟨effective, -, h⟩ := bind_eq_ok.mp h
    obtain rfl := Except.ok.inj h
    rfl

/-- **The order and the table agree.** -/
theorem Built.indexed {m : Metamodel} (hm : m.Built) : m.Indexed := by
  refine hm.induction (fun name => ?_) (fun m name literals ih => ?_) fun m d t _ ih ht => ?_
  · exact ⟨List.nodup_nil, by simp [type?], by simp [type?]⟩
  · exact ⟨ih.nodup_order, ih.mem_order, ih.name_eq⟩
  · obtain ⟨hnew, hname⟩ := type?_eq_none_of_resolve ht
    exact ih.enter (ih.not_mem_order.mpr (hname ▸ hnew))

/-! ### Tables of properties -/

/-- The names in a table of properties are distinct, and the properties are
declared by given types. -/
structure Table (declarers : List String) (table : List Property) : Prop where
  nodup : (table.map Property.name).Nodup
  declaredBy_mem : ∀ p ∈ table, p.declaredBy ∈ declarers

/-- The properties in the table of a type have distinct names and are declared by registered
types. -/
structure Unambiguous (m : Metamodel) : Prop where
  table : ∀ {name : String} {t : NodeType}, m.type? name = some t → Table m.order t.effective

/-- Adding a property to a table keeps it unambiguous. -/
theorem Table.adopt {declarers : List String} {type : String} {table table' : List Property}
    {p : Property} (htable : Table declarers table) (hp : p.declaredBy ∈ declarers)
    (h : NodeType.adopt type table p = .ok table') : Table declarers table' := by
  unfold NodeType.adopt at h
  split at h
  case h_1 hnone =>
    obtain rfl := Except.ok.inj h
    have hnew : p.name ∉ table.map Property.name := by
      intro hmem
      obtain ⟨q, hq, hname⟩ := List.mem_map.mp hmem
      have hfound := List.find?_eq_none.mp hnone q hq
      simp [hname] at hfound
    refine ⟨?_, ?_⟩
    · rw [List.map_append, List.map_singleton]
      refine List.nodup_append.mpr ⟨htable.nodup, List.nodup_singleton _, ?_⟩
      rintro x hx _ hy rfl
      exact hnew (List.mem_singleton.mp hy ▸ hx)
    · intro q hq
      rcases List.mem_append.mp hq with hq | hq
      · exact htable.declaredBy_mem q hq
      · exact List.mem_singleton.mp hq ▸ hp
  case h_2 =>
    split at h
    · obtain rfl := Except.ok.inj h
      exact htable
    · cases h

theorem Table.mono {declarers declarers' : List String} {table : List Property}
    (htable : Table declarers table) (hsub : declarers ⊆ declarers') :
    Table declarers' table :=
  ⟨htable.nodup, fun p hp => hsub (htable.declaredBy_mem p hp)⟩

theorem type_eq_ok {m : Metamodel} {name : String} {t : NodeType} :
    m.type name = .ok t ↔ m.type? name = some t := by
  unfold type
  cases m.type? name <;> simp

/-- Taking over the table of a supertype keeps a table unambiguous. -/
theorem Table.inherit {m : Metamodel} (hm : m.Unambiguous) {declarers : List String}
    (hsub : m.order ⊆ declarers) {type supertype : String}
    {table table' : List Property} (htable : Table declarers table)
    (h : m.inherit type table supertype = .ok table') : Table declarers table' := by
  unfold Metamodel.inherit at h
  split at h
  · cases h
  case h_2 s hs =>
    refine foldlM_invariant (fun p hp table table' htable hadopt => ?_) htable h
    have hdeclarer := (hm.table hs).declaredBy_mem p hp
    exact htable.adopt (hsub hdeclarer) hadopt

/-- Entering a declared property keeps a table unambiguous. -/
theorem Table.declare {m : Metamodel} {declarers : List String} {type : String}
    {table table' : List Property} {p : Property} (htable : Table declarers table)
    (hp : p.declaredBy ∈ declarers) (h : m.declare type table p = .ok table') :
    Table declarers table' := by
  unfold Metamodel.declare at h
  split at h
  · split at h
    · cases h
    · exact htable.adopt hp h
  · exact htable.adopt hp h

/-- The table of a type that was resolved is unambiguous. -/
theorem Unambiguous.resolve {m : Metamodel} (hm : m.Unambiguous) {d : TypeDeclaration}
    {t : NodeType} (h : m.resolve d = .ok t) : Table (m.order ++ [d.name]) t.effective := by
  obtain ⟨-, -, h⟩ := bind_eq_ok.mp h
  obtain ⟨inherited, hinherited, h⟩ := bind_eq_ok.mp h
  split at h
  · cases h
  · obtain ⟨effective, heffective, h⟩ := bind_eq_ok.mp h
    obtain rfl := Except.ok.inj h
    have hempty : Table (m.order ++ [d.name]) [] := ⟨List.nodup_nil, by simp⟩
    have hup := foldlM_invariant (fun supertype _ table table' htable hstep =>
      htable.inherit hm (List.subset_append_left _ _) hstep) hempty hinherited
    refine foldlM_invariant (fun p hp table table' htable hstep => ?_) hup heffective
    obtain ⟨q, -, rfl⟩ := List.mem_map.mp hp
    exact htable.declare (by simp) hstep

/-- **Registration keeps the tables unambiguous.** -/
theorem Built.unambiguous {m : Metamodel} (hm : m.Built) : m.Unambiguous := by
  refine hm.induction (fun name => ?_) (fun m name literals ih => ?_) fun m d t _ ih ht => ?_
  · exact ⟨fun ht => by cases ht⟩
  · exact ⟨ih.table⟩
  · refine ⟨fun {name u} hu => ?_⟩
    show Table (m.order ++ [t.name]) u.effective
    rw [type?_enter] at hu
    split at hu
    · obtain rfl := Option.some.inj hu
      rw [(type?_eq_none_of_resolve ht).2]
      exact ih.resolve ht
    · exact (ih.table hu).mono (List.subset_append_left _ _)

/-- The types of a metamodel have unambiguous tables. -/
theorem Built.nodup_names {m : Metamodel} (hm : m.Built) {name : String} {t : NodeType}
    (ht : m.type name = .ok t) : (t.effective.map Property.name).Nodup :=
  (hm.unambiguous.table (type_eq_ok.mp ht)).nodup

end Metamodel

/-- Places of one name in an unambiguous table are the same. -/
theorem index_unique {table : List Property} (ht : (table.map Property.name).Nodup)
    {p q : Property} {j k : Nat} (hp : table[j]? = some p) (hq : table[k]? = some q)
    (hname : p.name = q.name) : j = k := by
  have hlt : j < (table.map Property.name).length := by
    rw [List.length_map]
    exact (List.getElem?_eq_some_iff.mp hp).1
  refine (List.getElem?_inj hlt ht).mp ?_
  rw [List.getElem?_map, List.getElem?_map, hp, hq, Option.map_some, Option.map_some, hname]

/-- A property of an unambiguous table is found under its name. -/
theorem NodeType.property?_eq_some {t : NodeType} (ht : (t.effective.map Property.name).Nodup)
    {p : Property} (hp : p ∈ t.effective) : t.property? p.name = some p :=
  find?_of_nodup_key Property.name ht hp

/-- So is its place in the table. -/
theorem NodeType.find?_zipIdx {t : NodeType} (ht : (t.effective.map Property.name).Nodup)
    {p : Property} {j : Nat} (hp : t.effective[j]? = some p) :
    (t.effective.zipIdx.find? fun entry => entry.1.name == p.name) = some (p, j) := by
  have hnames : t.effective.zipIdx.map (fun entry => entry.1.name) =
      t.effective.map Property.name := by
    change t.effective.zipIdx.map (Property.name ∘ Prod.fst) = _
    rw [← List.map_map, List.zipIdx_map_fst]
  have hmem : (p, j) ∈ t.effective.zipIdx := List.mk_mem_zipIdx_iff_getElem?.mpr hp
  exact find?_of_nodup_key (fun entry : Property × Nat => entry.1.name) (hnames ▸ ht) hmem

end TypedForest
