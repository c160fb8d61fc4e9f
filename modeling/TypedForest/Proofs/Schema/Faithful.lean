import TypedForest.Proofs.Schema.Enrolment

/-!
# Faithful schemas

A schema is faithful if it reads back every pointer that it gives out.  Languages
and registries are, however they were made: the key of a concept is made from its
type and determines it, the key of a property is its name, and a registry holds each
language in each version once.

## Main Definitions

* `Schema.Faithful`: pointers lead back to where they come from.
* `Language.Keyed`: keys are made from types and names.
* `Registry.Built`: the registries that registering languages leads to.

## Main Results

* `Language.Built.faithful`, `Registry.Built.faithful`.

## Design Notes

Entering concepts may stop half way and leaves what was entered in place.  What is
shown of languages therefore holds of the state after a failure too, and is proved
of each step in whatever order they come (`Language.Keeps`).
-/

namespace TypedForest

/-- The schema reads back the pointers that it gives out. -/
structure Schema.Faithful {σ : Type} [Schema σ] (schema : σ) : Prop where
  type_eq : ∀ {type : String} {pointer : Pointer}, Schema.ofType? schema type = some pointer →
    pointer.isResolved = true ∧ Schema.toType? schema pointer = some type
  property_eq : ∀ {type property : String} {pointer : Pointer},
    Schema.ofProperty? schema type property = some pointer →
    pointer.isResolved = true ∧ Schema.toProperty? schema type pointer = some property

namespace Language

/-- The keys of concepts are those made from their types, and the keys of properties are
their names. -/
structure Keyed (l : Language) : Prop where
  concept_key : ∀ c ∈ l.concepts, c.key = s!"{l.key}-{c.type}"
  property_key : ∀ c ∈ l.concepts, ∀ entry ∈ c.properties.entries, entry.2 = entry.1

/-! ### Keys -/

theorem Keyed.enter {l : Language} (hl : l.Keyed) (type : String) : (l.enter type).Keyed := by
  unfold Language.enter
  split
  · exact hl
  · refine ⟨fun c hc => ?_, fun c hc => ?_⟩
    · rcases List.mem_append.mp hc with hc | hc
      · exact hl.concept_key c hc
      · rw [List.mem_singleton.mp hc]
    · rcases List.mem_append.mp hc with hc | hc
      · exact hl.property_key c hc
      · rw [List.mem_singleton.mp hc]
        intro entry hentry
        cases hentry

theorem Keyed.setFeatures {l : Language} (hl : l.Keyed) (registered : List String)
    (type : String) (t : NodeType) : (l.setFeatures registered type t).Keyed := by
  refine ⟨fun c hc => ?_, fun c hc => ?_⟩
  · obtain ⟨d, hd, rfl⟩ := List.mem_map.mp hc
    split <;> exact hl.concept_key d hd
  · obtain ⟨d, hd, rfl⟩ := List.mem_map.mp hc
    split
    · rintro ⟨name, key⟩ hentry
      exact (get?_keyed.mp (Dictionary.mem_entries.mp hentry)).1
    · exact hl.property_key d hd

theorem Built.keyed {l : Language} (h : l.Built) : l.Keyed := by
  have hstep : ∀ (m : Metamodel) (types : List String), Keeps Keyed (enroll m types) :=
    fun m types => keeps_enroll m types (fun _ type hl => hl.enter type)
      fun _ registered type t hl => hl.setFeatures registered type t
  induction h with
  | new key version => exact ⟨by simp, by simp⟩
  | @enrolled l l' m types _ h ih =>
      have hkeyed := hstep m types l ih
      rwa [h] at hkeyed
  | @abandoned l l' m types e _ h ih =>
      have hkeyed := hstep m types l ih
      rwa [h] at hkeyed

/-! ### Pointers lead back -/

/-- The key of a concept determines its type. -/
theorem Keyed.typeOfKey? {l : Language} (hl : l.Keyed) {c : Concept} (hc : c ∈ l.concepts) :
    l.typeOfKey? c.key = some c.type := by
  have hsome : (l.concepts.find? fun d => d.key == c.key).isSome :=
    List.find?_isSome.mpr ⟨c, hc, beq_self_eq_true c.key⟩
  obtain ⟨d, hd⟩ := Option.isSome_iff_exists.mp hsome
  have hkey : d.key = c.key := by simpa using List.find?_some hd
  rw [hl.concept_key d (List.mem_of_find?_eq_some hd), hl.concept_key c hc] at hkey
  have htype : d.type = c.type := by
    change toString d.type = toString c.type
    simpa using hkey
  rw [Language.typeOfKey?, hd, Option.map_some, htype]

theorem typePointer?_eq_some {l : Language} (hl : l.Keyed) {type : String} {pointer : Pointer}
    (h : l.typePointer? type = some pointer) :
    ∃ key, pointer = l.pointer key ∧ l.typeOfKey? key = some type := by
  obtain ⟨c, hc, rfl⟩ := Option.map_eq_some_iff.mp h
  obtain ⟨hmem, rfl⟩ := concept?_eq_some hc
  exact ⟨c.key, rfl, hl.typeOfKey? hmem⟩

/-- The keys of a concept's properties lead back to their names. -/
theorem Keyed.find?_entries {l : Language} (hl : l.Keyed) {c : Concept} (hc : c ∈ l.concepts)
    (key : String) :
    (c.properties.entries.find? fun entry => entry.2 == key).map Prod.fst =
      c.properties.get? key := by
  have hkeys : ∀ entry ∈ c.properties.entries, (entry.2 == key) = (entry.1 == key) :=
    fun entry hentry => by rw [hl.property_key c hc entry hentry]
  rw [← List.head?_filter, List.filter_congr hkeys, List.head?_filter, Dictionary.get?]
  cases hfound : c.properties.entries.find? fun entry => entry.1 == key with
  | none => rfl
  | some entry =>
      rw [Option.map_some, Option.map_some,
        hl.property_key c hc entry (List.mem_of_find?_eq_some hfound)]

theorem featurePointer?_eq_some {l : Language} (hl : l.Keyed) {type property : String}
    {pointer : Pointer} (h : l.featurePointer? type property = some pointer) :
    pointer = l.pointer property ∧ l.propertyOfKey? type property = some property := by
  obtain ⟨c, key, hc, hkey, rfl⟩ := featurePointer?_eq_some_iff.mp h
  have hmem := (concept?_eq_some hc).1
  obtain rfl : key = property := hl.property_key c hmem _ (Dictionary.mem_entries.mpr hkey)
  refine ⟨rfl, ?_⟩
  rw [propertyOfKey?, hc, Option.bind_some, hl.find?_entries hmem, hkey]

theorem owns_pointer (l : Language) (key : String) : l.owns (l.pointer key) = true := by
  simp [owns, pointer]

/-- Who owns a pointer of a language has its key and its version. -/
theorem key_eq_of_owns {k l : Language} {key : String} (h : k.owns (l.pointer key) = true) :
    (k.key, k.version) = (l.key, l.version) := by
  have hparts : l.key = k.key ∧ l.version = k.version := by
    simpa [owns, pointer] using h
  rw [hparts.1, hparts.2]

/-- **Languages are faithful.** -/
theorem Built.faithful {l : Language} (h : l.Built) : Schema.Faithful l where
  type_eq := by
    intro type pointer hpointer
    obtain ⟨key, rfl, hkey⟩ := typePointer?_eq_some h.keyed hpointer
    refine ⟨rfl, ?_⟩
    show (if l.owns (l.pointer key) then l.typeOfKey? key else none) = some type
    rw [if_pos (l.owns_pointer key), hkey]
  property_eq := by
    intro type property pointer hpointer
    obtain ⟨rfl, hkey⟩ := featurePointer?_eq_some h.keyed hpointer
    refine ⟨rfl, ?_⟩
    show (if l.owns (l.pointer property) then l.propertyOfKey? type property else none) = _
    rw [if_pos (l.owns_pointer property), hkey]

end Language

namespace Registry

/-- The registry was made by registering languages. -/
inductive Built : Registry → Prop
  | empty : Built {}
  | register {r r' : Registry} {l : Language} (hr : Built r) (hl : l.Built)
      (h : r.register l = .ok r') : Built r'

/-- A registry holds languages with proper keys, each in each version once. -/
theorem Built.keyed {r : Registry} (h : r.Built) :
    (∀ l ∈ r.languages, l.Keyed) ∧
      (r.languages.map fun l => (l.key, l.version)).Nodup := by
  induction h with
  | empty => exact ⟨by simp, List.nodup_nil⟩
  | @register r r' l _ hl h ih =>
      unfold Registry.register at h
      split at h
      · cases h
      case isFalse hnew =>
        obtain rfl := Except.ok.inj h
        refine ⟨?_, ?_⟩
        · intro k hk
          rcases List.mem_append.mp hk with hk | hk
          · exact ih.1 k hk
          · exact List.mem_singleton.mp hk ▸ hl.keyed
        · rw [List.map_append, List.map_singleton]
          refine List.nodup_append.mpr ⟨ih.2, List.nodup_singleton _, ?_⟩
          rintro x hx _ hy rfl
          obtain ⟨k, hk, hkl⟩ := List.mem_map.mp (List.mem_singleton.mp hy ▸ hx)
          refine hnew (List.any_eq_true.mpr ⟨k, hk, ?_⟩)
          simpa using hkl

theorem languageOf?_eq_some {r : Registry} {type : String} {l : Language}
    (h : r.languageOf? type = some l) : l ∈ r.languages :=
  List.mem_of_find?_eq_some h

/-- A registry reads back the concepts of each of its languages: only the language itself
owns its pointers. -/
theorem Built.toType?_typePointer {r : Registry} (h : r.Built) {l : Language}
    (hl : l ∈ r.languages) {type : String} {pointer : Pointer}
    (hpointer : l.typePointer? type = some pointer) :
    pointer.isResolved = true ∧ Schema.toType? r pointer = some type := by
  obtain ⟨key, rfl, hkey⟩ := Language.typePointer?_eq_some (h.keyed.1 l hl) hpointer
  refine ⟨rfl, ?_⟩
  show (r.languages.filter fun k => k.owns (l.pointer key)).findSome?
    (fun k => k.typeOfKey? key) = some type
  apply findSome?_eq_of_unique
  · exact ⟨l, List.mem_filter.mpr ⟨hl, l.owns_pointer key⟩, hkey⟩
  · intro k hk type' htype'
    obtain ⟨hkmem, howns⟩ := List.mem_filter.mp hk
    obtain rfl : k = l :=
      List.inj_on_of_nodup_map h.keyed.2 hkmem hl (Language.key_eq_of_owns howns)
    exact Option.some.inj (htype'.symm.trans hkey)

/-- **Registries are faithful.** -/
theorem Built.faithful {r : Registry} (h : r.Built) : Schema.Faithful r where
  type_eq := by
    intro type pointer hpointer
    obtain ⟨l, hl, hpointer⟩ := Option.bind_eq_some_iff.mp hpointer
    exact h.toType?_typePointer (languageOf?_eq_some hl) hpointer
  property_eq := by
    intro type property pointer hpointer
    obtain ⟨l, hl, hpointer⟩ := Option.bind_eq_some_iff.mp hpointer
    have hkeyed := h.keyed.1 l (languageOf?_eq_some hl)
    obtain ⟨rfl, hkey⟩ := Language.featurePointer?_eq_some hkeyed hpointer
    refine ⟨rfl, ?_⟩
    show (r.languageOf? type).bind (fun k =>
      if k.owns (l.pointer property) then k.propertyOfKey? type property else none) = _
    rw [hl, Option.bind_some, if_pos (l.owns_pointer property), hkey]

end Registry

end TypedForest
