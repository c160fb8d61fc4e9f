import TypedForest.Proofs.Dictionary
import TypedForest.Proofs.Metamodel.Tables
import TypedForest.Schema.Language

/-!
# Adding concepts

Concepts are added in two loops over types.  The first enters the types that are given, the
second determines the properties of all concepts.  Both stop at the first type that the
metamodel does not know, and what they did before stays.  This module says exactly what
they leave behind.

What is left after a success has a simple form.  The concepts are those from before and
those entered, and the properties of all of them are determined by the set of types that
are concepts now, whatever they were before.

## Main Definitions

* `Language.Built`: the languages that adding concepts leads to.
* `Language.Keeps`: what a computation keeps, whether it succeeds or fails.
* `Language.features`: the properties of a type that have a key.
* `Language.Settled`: concepts and properties are those of a set of types.

## Main Results

* `Language.enroll_of_known`, `Language.enroll_of_unknown_name`,
  `Language.enroll_of_unknown_concept`: the three outcomes.
* `Language.Settled.enroll`: what adding concepts successfully gives.
* `Language.settled_ofMetamodel`: the language of a metamodel is complete.
-/

namespace TypedForest

namespace Metamodel

variable {m : Metamodel} {type : String}

/-- Is there a node type of the name? -/
def knows (m : Metamodel) (type : String) : Bool := (m.type? type).isSome

theorem exists_type_of_knows (h : m.knows type = true) : ∃ t, m.type type = .ok t := by
  obtain ⟨t, ht⟩ := Option.isSome_iff_exists.mp h
  exact ⟨t, type_eq_ok.mpr ht⟩

theorem type_of_not_knows (h : m.knows type = false) :
    m.type type = .error (.unknownType type) := by
  have hnone : m.type? type = none := by simpa [knows] using h
  rw [Metamodel.type, hnone]

/-- Either all types are known, or there is a first one that is not. -/
theorem all_known_or_first_unknown (m : Metamodel) (names : List String) :
    (∀ type ∈ names, m.knows type = true) ∨
      ∃ before type after, names = before ++ type :: after ∧
        (∀ other ∈ before, m.knows other = true) ∧ m.knows type = false := by
  induction names with
  | nil => exact .inl (by simp)
  | cons name names ih =>
      cases hname : m.knows name with
      | false => exact .inr ⟨[], name, names, rfl, by simp, hname⟩
      | true =>
          rcases ih with hall | ⟨before, type, after, rfl, hbefore, htype⟩
          · exact .inl (List.forall_mem_cons.mpr ⟨hname, hall⟩)
          · exact .inr ⟨name :: before, type, after, rfl,
              List.forall_mem_cons.mpr ⟨hname, hbefore⟩, htype⟩

end Metamodel

namespace Language

/-- The language was made by adding concepts, with or without success. -/
inductive Built : Language → Prop
  | new (key version : String) : Built { key, version }
  | enrolled {l l' : Language} {m : Metamodel} {types : List String} (hl : Built l)
      (h : enroll m types l = .ok () l') : Built l'
  | abandoned {l l' : Language} {m : Metamodel} {types : List String} {e : Error}
      (hl : Built l) (h : enroll m types l = .error e l') : Built l'

/-- The types among the concepts of a language. -/
def types (l : Language) : List String := l.concepts.map Concept.type

/-- The step of the first part: a type that must be known becomes a concept. -/
def enterKnown (m : Metamodel) (type : String) : EStateM Error Language Unit := do
  let _ ← known m type
  modify fun l => l.enter type

/-- The step of the second part: the properties of a concept are determined. -/
def determine (m : Metamodel) (registered : List String) (type : String) :
    EStateM Error Language Unit := do
  let t ← known m type
  modify fun l => l.setFeatures registered type t

theorem enroll_eq (m : Metamodel) (names : List String) :
    enroll m names = (do
      names.forM (enterKnown m)
      let l ← get
      l.types.forM (determine m l.types)) := rfl

/-- The computation keeps the predicate, whether it succeeds or fails. -/
def Keeps {α : Type} (motive : Language → Prop) (x : EStateM Error Language α) : Prop :=
  ∀ l, motive l → motive (outcome (x l))

section Keeps

variable {α β : Type} {motive : Language → Prop}

theorem Keeps.bind {x : EStateM Error Language α} {k : α → EStateM Error Language β}
    (hx : Keeps motive x) (hk : ∀ a, Keeps motive (k a)) : Keeps motive (x >>= k) := by
  intro l hl
  have hl' := hx l hl
  cases hres : x l with
  | ok a l' =>
      rw [hres] at hl'
      rw [bind_of_ok k hres]
      exact hk a l' hl'
  | error e l' =>
      rw [hres] at hl'
      rw [bind_of_error k hres]
      exact hl'

theorem Keeps.forM {l : List α} {act : α → EStateM Error Language Unit}
    (hact : ∀ a, Keeps motive (act a)) : Keeps motive (l.forM act) := by
  induction l with
  | nil => exact fun _ hl => hl
  | cons a l ih =>
      show Keeps motive (act a >>= fun _ => l.forM act)
      exact (hact a).bind fun _ => ih

theorem keeps_known (m : Metamodel) (type : String) : Keeps motive (known m type) := by
  intro l hl
  rw [known, ask]
  cases m.type type <;> exact hl

theorem keeps_get : Keeps motive (get : EStateM Error Language Language) := fun _ hl => hl

theorem keeps_modify {change : Language → Language} (h : ∀ l, motive l → motive (change l)) :
    Keeps motive (modify change : EStateM Error Language PUnit) := fun l hl => h l hl

/-- What entering concepts and determining their properties keep, adding concepts
keeps. -/
theorem keeps_enroll (m : Metamodel) (types : List String)
    (henter : ∀ l type, motive l → motive (l.enter type))
    (hset : ∀ l registered type t, motive l → motive (l.setFeatures registered type t)) :
    Keeps motive (enroll m types) := by
  rw [enroll_eq]
  refine (Keeps.forM fun type => ?_).bind fun _ => keeps_get.bind fun l => Keeps.forM fun type => ?_
  · exact (keeps_known m type).bind fun _ => keeps_modify fun l => henter l type
  · exact (keeps_known m type).bind fun t => keeps_modify fun l => hset l _ type t

end Keeps

variable {m : Metamodel} {l l' : Language} {type other : String} {names registered : List String}

/-! ### The concept of a type -/

theorem concept?_eq_some {c : Concept} (h : l.concept? type = some c) :
    c ∈ l.concepts ∧ c.type = type :=
  ⟨List.mem_of_find?_eq_some h, by simpa using List.find?_some h⟩

theorem isSome_concept? (h : type ∈ l.types) : (l.concept? type).isSome := by
  obtain ⟨c, hc, rfl⟩ := List.mem_map.mp h
  exact List.find?_isSome.mpr ⟨c, hc, beq_self_eq_true c.type⟩

theorem isSome_concept?_iff : (l.concept? type).isSome ↔ type ∈ l.types := by
  refine ⟨fun h => ?_, isSome_concept?⟩
  obtain ⟨c, hc⟩ := Option.isSome_iff_exists.mp h
  obtain ⟨hmem, rfl⟩ := concept?_eq_some hc
  exact List.mem_map_of_mem hmem

/-- A property has a pointer if it has a key in the concept of the type. -/
theorem featurePointer?_eq_some_iff {property : String} {pointer : Pointer} :
    l.featurePointer? type property = some pointer ↔
      ∃ c key, l.concept? type = some c ∧ c.properties.get? property = some key ∧
        pointer = l.pointer key := by
  rw [featurePointer?, Option.bind_eq_some_iff]
  simp only [Option.map_eq_some_iff]
  constructor
  · rintro ⟨c, hc, key, hkey, rfl⟩
    exact ⟨c, key, hc, hkey, rfl⟩
  · rintro ⟨c, key, hc, hkey, rfl⟩
    exact ⟨c, hc, key, hkey, rfl⟩

/-- Entering a type leaves all concepts alone and adds one for the type, if it has none. -/
theorem concept?_enter (l : Language) (type other : String) :
    (l.enter type).concept? other =
      (l.concept? other).or
        (if other = type then some { type, key := s!"{l.key}-{type}" } else none) := by
  unfold enter
  split
  case isTrue hsome =>
    by_cases hother : other = type
    · obtain ⟨c, hc⟩ := Option.isSome_iff_exists.mp hsome
      rw [hother, hc, Option.some_or]
    · rw [if_neg hother, Option.or_none]
  case isFalse =>
    rw [concept?, List.find?_append, concept?, List.find?_singleton]
    simp only [beq_iff_eq, eq_comm (a := other)]

theorem types_setFeatures (l : Language) (registered : List String) (type : String)
    (t : NodeType) : (l.setFeatures registered type t).types = l.types := by
  rw [types, setFeatures, List.map_map]
  refine List.map_congr_left fun c _ => ?_
  show (if c.type = type then { c with properties := keyed registered t } else c).type = c.type
  split <;> rfl

/-! ### What the loops do -/

theorem enterKnown_eq {t : NodeType} (ht : m.type type = .ok t) (l : Language) :
    enterKnown m type l = .ok () (l.enter type) := by
  have hknown : known m type l = .ok t l := ask_of_ok ht
  exact bind_of_ok _ hknown

theorem determine_eq (registered : List String) {t : NodeType} (ht : m.type type = .ok t)
    (l : Language) : determine m registered type l = .ok () (l.setFeatures registered type t) := by
  have hknown : known m type l = .ok t l := ask_of_ok ht
  exact bind_of_ok _ hknown

/-- Neither step goes beyond a type that is not known. -/
theorem bind_known_eq_error {k : NodeType → EStateM Error Language Unit}
    (h : m.knows type = false) (l : Language) :
    (known m type >>= k) l = .error (.unknownType type) l := by
  have hknown : known m type l = .error (.unknownType type) l :=
    ask_of_error (Metamodel.type_of_not_knows h)
  exact bind_of_error k hknown

section Loops

variable {act : String → EStateM Error Language Unit} {step : Language → String → Language}

/-- A loop all of whose steps succeed. -/
theorem forM_eq_ok (hact : ∀ type ∈ names, ∀ l, act type l = .ok () (step l type))
    (l : Language) : names.forM act l = .ok () (names.foldl step l) := by
  induction names generalizing l with
  | nil => rfl
  | cons name names ih =>
      rw [List.forall_mem_cons] at hact
      rw [List.foldl_cons, ← ih hact.2 (step l name)]
      exact bind_of_ok _ (hact.1 l)

/-- A loop that stops at some step: what the steps before did stays. -/
theorem forM_eq_error {before after : List String} {e : Error}
    (hact : ∀ other ∈ before, ∀ l, act other l = .ok () (step l other))
    (hstop : ∀ l, act type l = .error e l) (l : Language) :
    (before ++ type :: after).forM act l = .error e (before.foldl step l) := by
  induction before generalizing l with
  | nil => exact bind_of_error _ (hstop l)
  | cons name before ih =>
      rw [List.forall_mem_cons] at hact
      rw [List.foldl_cons, ← ih hact.2 (step l name)]
      exact bind_of_ok _ (hact.1 l)

end Loops

/-- The properties of a type that have a key when the given types are concepts, with their
keys; none if the type is not known. -/
def features (m : Metamodel) (registered : List String) (type : String) :
    Dictionary String String :=
  ((m.type? type).map (keyed registered)).getD .empty

/-- Determine the properties of the concept of a type, if the type is known. -/
def refresh (m : Metamodel) (registered : List String) (l : Language) (type : String) : Language :=
  ((m.type? type).map (l.setFeatures registered type)).getD l

/-- Determine the properties of all concepts. -/
def refreshAll (m : Metamodel) (l : Language) : Language :=
  { l with
    concepts := l.concepts.map fun c => { c with properties := features m l.types c.type } }

/-- The key of a property is its name. -/
theorem get?_keyed {t : NodeType} {property key : String} :
    (keyed registered t).get? property = some key ↔
      key = property ∧ ∃ p ∈ t.effective, p.name = property ∧ p.declaredBy ∈ registered := by
  have hget : (keyed registered t).get? property =
      if property ∈ (t.effective.filter fun p => registered.contains p.declaredBy).map
        Property.name then some property else none :=
    Dictionary.get?_ofList _ Property.name (fun name => name) property
  rw [hget]
  constructor
  · intro hkey
    split at hkey
    case isTrue hmem =>
      obtain ⟨p, hp, hname⟩ := List.mem_map.mp hmem
      obtain ⟨hp, hby⟩ := List.mem_filter.mp hp
      exact ⟨(Option.some.inj hkey).symm, p, hp, hname, List.contains_iff_mem.mp hby⟩
    case isFalse => cases hkey
  · rintro ⟨rfl, p, hp, hname, hby⟩
    have hkeep : p ∈ t.effective.filter fun p => registered.contains p.declaredBy :=
      List.mem_filter.mpr ⟨hp, by simpa using hby⟩
    exact if_pos (List.mem_map.mpr ⟨p, hkeep, hname⟩)

theorem get?_features {property key : String} :
    (features m registered type).get? property = some key ↔
      key = property ∧ ∃ t p, m.type? type = some t ∧ p ∈ t.effective ∧ p.name = property ∧
        p.declaredBy ∈ registered := by
  rw [features]
  cases ht : m.type? type with
  | none => simp
  | some t => simp [get?_keyed]

/-- Of the types that are concepts, only the set matters. -/
theorem features_congr {registered' : List String}
    (h : ∀ type, type ∈ registered ↔ type ∈ registered') (m : Metamodel) (type : String) :
    features m registered type = features m registered' type := by
  have hkeyed : keyed registered = keyed registered' := by
    funext t
    rw [keyed, keyed]
    congr 2
    refine List.filter_congr fun p _ => ?_
    rw [Bool.eq_iff_iff, List.contains_iff_mem, List.contains_iff_mem, h]
  rw [features, features, hkeyed]

/-- Entering types does not change which language it is. -/
theorem key_foldl_enter (names : List String) (l : Language) :
    (names.foldl enter l).key = l.key ∧ (names.foldl enter l).version = l.version := by
  induction names generalizing l with
  | nil => exact ⟨rfl, rfl⟩
  | cons name names ih =>
      have hstep : (l.enter name).key = l.key ∧ (l.enter name).version = l.version := by
        unfold enter
        split <;> exact ⟨rfl, rfl⟩
      rw [List.foldl_cons, ← hstep.1, ← hstep.2]
      exact ih (l.enter name)

/-- Entering several types. -/
theorem concept?_foldl_enter (names : List String) (l : Language) (other : String) :
    (names.foldl enter l).concept? other =
      (l.concept? other).or
        (if other ∈ names then some { type := other, key := s!"{l.key}-{other}" } else none) := by
  induction names generalizing l with
  | nil => simp
  | cons name names ih =>
      have hkey : (l.enter name).key = l.key := (key_foldl_enter [name] l).1
      rw [List.foldl_cons, ih, concept?_enter, hkey, Option.or_assoc]
      congr 1
      by_cases hname : other = name
      · subst hname
        simp
      · simp [hname]

theorem mem_types_foldl_enter :
    other ∈ (names.foldl enter l).types ↔ other ∈ l.types ∨ other ∈ names := by
  rw [← isSome_concept?_iff, ← isSome_concept?_iff, concept?_foldl_enter, Option.isSome_or]
  by_cases hother : other ∈ names <;> simp [hother]

/-- Determining the properties of several types: they no longer depend on what they were. -/
theorem foldl_refresh (hknown : ∀ type ∈ names, m.knows type = true) (l : Language) :
    names.foldl (refresh m registered) l =
      { l with
        concepts := l.concepts.map fun c =>
          if c.type ∈ names then { c with properties := features m registered c.type }
          else c } := by
  induction names generalizing l with
  | nil => simp
  | cons name names ih =>
      rw [List.forall_mem_cons] at hknown
      obtain ⟨t, ht⟩ := Option.isSome_iff_exists.mp hknown.1
      have hstep : refresh m registered l name = l.setFeatures registered name t := by
        rw [refresh, ht]
        rfl
      have hfeatures : features m registered name = keyed registered t := by
        rw [features, ht]
        rfl
      rw [List.foldl_cons, ih hknown.2, hstep, setFeatures, List.map_map]
      refine congrArg (fun concepts => { l with concepts }) (List.map_congr_left fun c _ => ?_)
      by_cases hc : c.type = name
      · simp [hc, hfeatures]
      · simp [hc]

theorem concept?_refreshAll (m : Metamodel) (l : Language) (type : String) :
    (l.refreshAll m).concept? type =
      (l.concept? type).map fun c => { c with properties := features m l.types c.type } :=
  List.find?_map

/-! ### The outcomes -/

theorem enterKnown_of_knows (h : m.knows type = true) (l : Language) :
    enterKnown m type l = .ok () (l.enter type) := by
  obtain ⟨t, ht⟩ := Metamodel.exists_type_of_knows h
  exact enterKnown_eq ht l

theorem determine_of_knows (h : m.knows type = true) (l : Language) :
    determine m registered type l = .ok () (refresh m registered l type) := by
  obtain ⟨t, ht⟩ := Metamodel.exists_type_of_knows h
  rw [determine_eq registered ht, refresh, Metamodel.type_eq_ok.mp ht]
  rfl

/-- **A name that is not known.**  The names before it have been entered, and no properties
have been determined. -/
theorem enroll_of_unknown_name {before after : List String}
    (hbefore : ∀ other ∈ before, m.knows other = true) (htype : m.knows type = false)
    (l : Language) :
    enroll m (before ++ type :: after) l = .error (.unknownType type) (before.foldl enter l) := by
  have hfirst : (before ++ type :: after).forM (enterKnown m) l =
      .error (.unknownType type) (before.foldl enter l) :=
    forM_eq_error (fun other hother => enterKnown_of_knows (hbefore other hother))
      (bind_known_eq_error htype) l
  rw [enroll_eq]
  exact bind_of_error _ hfirst

/-- Once all names are entered, the properties of all concepts are determined. -/
theorem enroll_of_known_names (hnames : ∀ type ∈ names, m.knows type = true) (l : Language) :
    enroll m names l = (names.foldl enter l).types.forM
      (determine m (names.foldl enter l).types) (names.foldl enter l) := by
  have hfirst : names.forM (enterKnown m) l = .ok () (names.foldl enter l) :=
    forM_eq_ok (fun type htype => enterKnown_of_knows (hnames type htype)) l
  rw [enroll_eq]
  exact bind_of_ok _ hfirst

/-- **A concept that is not known.**  All names have been entered, and the properties of the
concepts before it have been determined. -/
theorem enroll_of_unknown_concept {before after : List String}
    (hnames : ∀ type ∈ names, m.knows type = true)
    (hsplit : (names.foldl enter l).types = before ++ type :: after)
    (hbefore : ∀ other ∈ before, m.knows other = true) (htype : m.knows type = false) :
    enroll m names l = .error (.unknownType type)
      (before.foldl (refresh m (names.foldl enter l).types) (names.foldl enter l)) := by
  have hsecond : (before ++ type :: after).forM (determine m (names.foldl enter l).types)
      (names.foldl enter l) = .error (.unknownType type)
        (before.foldl (refresh m (names.foldl enter l).types) (names.foldl enter l)) :=
    forM_eq_error (fun other hother => determine_of_knows (hbefore other hother))
      (bind_known_eq_error htype) _
  rw [← hsecond, ← hsplit, enroll_of_known_names hnames]

/-- **Nothing that is not known.**  All names have been entered, and the properties of all
concepts have been determined. -/
theorem enroll_of_known (hnames : ∀ type ∈ names, m.knows type = true)
    (hold : ∀ type ∈ l.types, m.knows type = true) :
    enroll m names l = .ok () ((names.foldl enter l).refreshAll m) := by
  have hall : ∀ type ∈ (names.foldl enter l).types, m.knows type = true := by
    intro type htype
    rcases mem_types_foldl_enter.mp htype with h | h
    · exact hold type h
    · exact hnames type h
  rw [enroll_of_known_names hnames,
    forM_eq_ok (fun type htype => determine_of_knows (hall type htype)), foldl_refresh hall,
    refreshAll]
  congr 2
  exact List.map_congr_left fun c hc => if_pos (List.mem_map_of_mem hc)

/-- Adding concepts succeeds exactly if all types are known, those given and those that are
concepts before. -/
theorem enroll_eq_ok :
    enroll m names l = .ok () l' ↔
      (∀ type ∈ names, m.knows type = true) ∧ (∀ type ∈ l.types, m.knows type = true) ∧
        l' = (names.foldl enter l).refreshAll m := by
  constructor
  · intro h
    rcases m.all_known_or_first_unknown names with hnames | ⟨_, _, _, rfl, hbefore, htype⟩
    · rcases m.all_known_or_first_unknown (names.foldl enter l).types with
        hall | ⟨_, _, _, hsplit, hbefore, htype⟩
      · have hold : ∀ type ∈ l.types, m.knows type = true :=
          fun type htype => hall type (mem_types_foldl_enter.mpr (.inl htype))
        rw [enroll_of_known hnames hold] at h
        exact ⟨hnames, hold, (EStateM.Result.ok.inj h).2.symm⟩
      · rw [enroll_of_unknown_concept hnames hsplit hbefore htype] at h
        cases h
    · rw [enroll_of_unknown_name hbefore htype] at h
      cases h
  · rintro ⟨hnames, hold, rfl⟩
    exact enroll_of_known hnames hold

/-! ### The content of a language -/

/-- The concepts of the language are exactly the given types, all known to the metamodel,
with the keys made from them and with all properties that have a key then. -/
structure Settled (m : Metamodel) (types : List String) (l : Language) : Prop where
  known : ∀ type ∈ types, m.knows type = true
  concept?_eq : ∀ type, l.concept? type =
    if type ∈ types then some ⟨type, s!"{l.key}-{type}", features m types type⟩ else none

theorem settled_new (m : Metamodel) (key version : String) : Settled m [] { key, version } :=
  ⟨by simp, fun type => by simp [concept?]⟩

namespace Settled

variable {types : List String}

theorem mem_types (hl : Settled m types l) : type ∈ l.types ↔ type ∈ types := by
  rw [← isSome_concept?_iff, hl.concept?_eq]
  by_cases h : type ∈ types <;> simp [h]

theorem exists_enroll_iff (hl : Settled m types l) :
    (∃ l', Language.enroll m names l = .ok () l') ↔ ∀ type ∈ names, m.knows type = true := by
  constructor
  · rintro ⟨l', h⟩
    exact (enroll_eq_ok.mp h).1
  · intro h
    exact ⟨_, enroll_of_known h fun type htype => hl.known type (hl.mem_types.mp htype)⟩

/-- **Adding concepts successfully.** -/
theorem enroll (hl : Settled m types l) (h : Language.enroll m names l = .ok () l') :
    Settled m (types ++ names) l' ∧ l'.key = l.key ∧ l'.version = l.version := by
  obtain ⟨hnames, -, rfl⟩ := enroll_eq_ok.mp h
  obtain ⟨hkey, hversion⟩ := key_foldl_enter names l
  have hset : ∀ other, other ∈ (names.foldl enter l).types ↔ other ∈ types ++ names := by
    intro other
    rw [mem_types_foldl_enter, hl.mem_types, List.mem_append]
  refine ⟨⟨fun type htype => ?_, fun type => ?_⟩, hkey, hversion⟩
  · exact (List.mem_append.mp htype).elim (hl.known type) (hnames type)
  · have hkey' : ((names.foldl enter l).refreshAll m).key = l.key := hkey
    have hfeatures := features_congr hset m type
    rw [concept?_refreshAll, concept?_foldl_enter, hl.concept?_eq, hkey']
    by_cases htype : type ∈ types
    · simp [htype, hfeatures]
    · by_cases hname : type ∈ names <;> simp [htype, hname, hfeatures]

/-- The concepts are the given types. -/
theorem typePointer?_eq (hl : Settled m types l) (type : String) :
    l.typePointer? type =
      if type ∈ types then some (l.pointer s!"{l.key}-{type}") else none := by
  rw [typePointer?, hl.concept?_eq]
  split <;> rfl

/-- The properties that have a pointer are those that have a key, which is their name. -/
theorem featurePointer?_eq_some (hl : Settled m types l) {property : String} {pointer : Pointer} :
    l.featurePointer? type property = some pointer ↔
      pointer = l.pointer property ∧ type ∈ types ∧
        ∃ t p, m.type? type = some t ∧ p ∈ t.effective ∧ p.name = property ∧
          p.declaredBy ∈ types := by
  rw [featurePointer?_eq_some_iff, hl.concept?_eq]
  by_cases htype : type ∈ types
  · rw [if_pos htype]
    constructor
    · rintro ⟨c, key, hc, hkey, rfl⟩
      obtain rfl := Option.some.inj hc
      obtain ⟨rfl, hfeature⟩ := get?_features.mp hkey
      exact ⟨rfl, htype, hfeature⟩
    · rintro ⟨rfl, -, hfeature⟩
      exact ⟨_, property, rfl, get?_features.mpr ⟨rfl, hfeature⟩, rfl⟩
  · simp [htype]

end Settled

/-- **The language of a metamodel has all its types as concepts.** -/
theorem settled_ofMetamodel (hm : m.Built) (key version : String) :
    ∃ l, ofMetamodel key version m = .ok l ∧ l.Built ∧
      Settled m (m.types.map NodeType.name) l ∧ l.key = key ∧ l.version = version := by
  have hknown : ∀ type ∈ m.types.map NodeType.name, m.knows type = true := by
    intro type htype
    obtain ⟨t, ht, rfl⟩ := List.mem_map.mp htype
    rw [Metamodel.knows, hm.indexed.mem_types.mp ht]
    rfl
  have hnew := settled_new m key version
  obtain ⟨l, hrun⟩ := hnew.exists_enroll_iff.mpr hknown
  exact ⟨l, by rw [ofMetamodel, hrun], .enrolled (.new key version) hrun, hnew.enroll hrun⟩

/-- Where all types are concepts, so are those that declare a property. -/
theorem Settled.featurePointer?_eq (hm : m.Built) (hl : Settled m (m.types.map NodeType.name) l)
    {t : NodeType} (ht : m.type? type = some t) {p : Property} (hp : p ∈ t.effective) :
    l.featurePointer? type p.name = some (l.pointer p.name) := by
  have hdeclared := (hm.unambiguous.table ht).declaredBy_mem p hp
  rw [← hm.indexed.map_name_types] at hdeclared
  obtain ⟨hmem, rfl⟩ := hm.indexed.mem_of_type? ht
  exact hl.featurePointer?_eq_some.mpr ⟨rfl, List.mem_map_of_mem hmem,
    t, p, ht, hp, rfl, hdeclared⟩

/-- The language of a metamodel has a pointer for every type and every effective property. -/
theorem exists_ofMetamodel (hm : m.Built) (key version : String) :
    ∃ l, ofMetamodel key version m = .ok l ∧ l.Built ∧
      ∀ type t, m.type type = .ok t → (l.typePointer? type).isSome ∧
        ∀ p ∈ t.effective, (l.featurePointer? type p.name).isSome := by
  obtain ⟨l, hrun, hbuilt, hl, -, -⟩ := settled_ofMetamodel hm key version
  refine ⟨l, hrun, hbuilt, fun type t ht => ?_⟩
  have ht := Metamodel.type_eq_ok.mp ht
  obtain ⟨hmem, rfl⟩ := hm.indexed.mem_of_type? ht
  refine ⟨?_, fun p hp => ?_⟩
  · rw [hl.typePointer?_eq, if_pos (List.mem_map_of_mem hmem)]
    rfl
  · rw [hl.featurePointer?_eq hm ht hp]
    rfl

end Language

end TypedForest
